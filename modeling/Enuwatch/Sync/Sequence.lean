import Enuwatch.Sync.Traversal

/-!
# Sequence numbers

A task takes its sequence number in three separate actions: it loads `g_seq`, loads it
again, and stores the successor of the second value. When no task starts to take a number
while another one is taking its own, the numbers are handed out one by one: they are
pairwise distinct, and a child's is greater than its parent's (`sequence_ok`). When two
tasks take their numbers together, they can get the same one (`sequence_clash`).
-/

set_option autoImplicit false

namespace Enuwatch.Sync

open Enuwatch.Lib

variable {N : Type}

/-- The number a task has taken and not sent yet. -/
def Task.seq (t : Task N) : Option UInt32 :=
  match t.pc with
  | .before (.reload seq) => some seq
  | .before (.store seq _) => some seq
  | .before (.send seq) => some seq
  | .before (.draw seq _) => some seq
  | _ => none

/-- The task is between its first load of `g_seq` and its store. -/
def Task.Taking (t : Task N) : Prop :=
  match t.pc with
  | .before (.reload _) => True
  | .before (.store _ _) => True
  | _ => False

instance (t : Task N) : Decidable t.Taking := by
  unfold Task.Taking
  split <;> infer_instance

def Task.flying (t : Task N) : ℕ := if t.seq.isSome then 1 else 0

/-- The messages that have a number: those sent and those about to be. -/
def Client.messages (s : Client N) : ℕ := s.sends.length + total Task.flying s.tasks

/-- The step does not start to take a number while another task is taking one. -/
def TakesAlone (s : Client N) : Input → Prop
  | .task i _ => ∀ t ∈ s.tasks[i]?, t.pc = .before .load → ∀ m ∈ s.tasks, ¬ m.Taking
  | _ => True

instance [DecidableEq N] (s : Client N) (input : Input) : Decidable (TakesAlone s input) :=
  match input with
  | .task i _ => inferInstanceAs (Decidable (∀ t ∈ s.tasks[i]?, _ → ∀ m ∈ s.tasks, ¬ m.Taking))
  | .terminate _ _ => isTrue trivial

/-- The node `n` has the number `q`. -/
def Number (s : Client N) (n : N) (q : UInt32) : Prop :=
  (∃ e ∈ s.sends, e.node = n ∧ e.call.seq = q) ∨ ∃ t ∈ s.tasks, t.node = n ∧ t.seq = some q

/-- What holds of the numbers as long as they are taken one by one. -/
structure Numbered (T : Tree N) (s : Client N) : Prop where
  below : ∀ n q, Number s n q → q.toNat < s.messages
  unique : ∀ n m q, Number s n q → Number s m q → n = m
  later : ∀ n p q r, T.parent n = some p → Number s n q → Number s p r → r < q
  free : (∀ t ∈ s.tasks, ¬ t.Taking) → s.gSeq.toNat = s.messages
  taken : ∀ t ∈ s.tasks, t.Taking → t.seq = some s.gSeq ∧ s.gSeq.toNat + 1 = s.messages ∧
    ∀ seq loaded, t.pc = .before (.store seq loaded) → loaded = s.gSeq

variable {T : Tree N} {s s' : Client N} {i : ℕ} {t t' : Task N} {added : List (Task N)}

theorem nextSeq_toNat {loaded : UInt32} (few : loaded.toNat + 1 < 2 ^ 32 - 1) :
    (nextSeq loaded).toNat = loaded.toNat + 1 := by
  rw [nextSeq, UInt32.toNat_mod, UInt32.toNat_add]
  change (loaded.toNat + 1) % 2 ^ 32 % 4294967295 = loaded.toNat + 1
  omega

/-- The numbers of the others stay when one task moves. -/
theorem Number.of_set (here : s.tasks[i]? = some t) (tasks : ∀ m ∈ s.tasks.set i t', m ∈ s'.tasks)
    (sends : ∀ e ∈ s.sends, e ∈ s'.sends) {n : N} {q : UInt32} (number : Number s n q) :
    Number s' n q ∨ t.node = n ∧ t.seq = some q := by
  rcases number with ⟨e, logged, facts⟩ | ⟨m, old, facts⟩
  · exact .inl (.inl ⟨e, sends e logged, facts⟩)
  · obtain ⟨j, there⟩ := List.mem_iff_getElem?.1 old
    by_cases moved : i = j
    · subst moved
      rw [here, Option.some.injEq] at there
      exact .inr (there ▸ facts)
    · refine .inl (.inr ⟨m, tasks m (List.mem_of_getElem? (i := j) ?_), facts⟩)
      rw [List.getElem?_set_ne moved, there]

section Quiet

variable (here : s.tasks[i]? = some t) (tasks : s'.tasks = s.tasks.set i t' ++ added)
  (node : t'.node = t.node) (seq : t'.seq = t.seq) (unnumbered : ∀ m ∈ added, m.seq = none)
  (sends : s'.sends = s.sends)
include here tasks node seq unnumbered sends

/-- A task that keeps its number changes no number. -/
theorem number_iff (n : N) (q : UInt32) : Number s' n q ↔ Number s n q := by
  have inside : i < s.tasks.length := (List.getElem?_eq_some_iff.1 here).1
  constructor
  · rintro (logged | ⟨m, within, own, number⟩)
    · exact .inl (sends ▸ logged)
    · rw [tasks] at within
      rcases List.mem_append.1 within with old | new
      · rcases List.mem_or_eq_of_mem_set old with old | rfl
        · exact .inr ⟨m, old, own, number⟩
        · exact .inr ⟨t, List.mem_of_getElem? here, node ▸ own, seq ▸ number⟩
      · rw [unnumbered m new] at number
        cases number
  · intro number
    have others : ∀ m ∈ s.tasks.set i t', m ∈ s'.tasks := by simp +contextual [tasks]
    rcases number.of_set here others (by simp [sends]) with kept | ⟨own, number⟩
    · exact kept
    · exact .inr ⟨t', tasks ▸ List.mem_append_left _ (List.mem_set inside t'), node.trans own,
        seq.trans number⟩

omit node in
theorem messages_eq : s'.messages = s.messages := by
  have moved := total_set (f := Task.flying) here t'
  have none : total Task.flying added = 0 :=
    total_eq_zero fun m new => by simp [Task.flying, unnumbered m new]
  have same : t'.flying = t.flying := by simp [Task.flying, seq]
  rw [Client.messages, Client.messages, sends, tasks, total_append]
  omega

theorem Numbered.quiet (numbered : Numbered T s) (calm : ¬ t.Taking) (calm' : ¬ t'.Taking)
    (untaking : ∀ m ∈ added, ¬ m.Taking) (gSeq : s'.gSeq = s.gSeq) : Numbered T s' := by
  have number := number_iff here tasks node seq unnumbered sends
  have messages := messages_eq here tasks seq unnumbered sends
  constructor
  case below => simpa only [number, messages] using numbered.below
  case unique => simpa only [number] using numbered.unique
  case later => simpa only [number] using numbered.later
  case free =>
    intro none
    rw [gSeq, messages]
    have others : ∀ m ∈ s.tasks.set i t', ¬ m.Taking := fun m moved =>
      none m (tasks ▸ List.mem_append_left _ moved)
    exact numbered.free (forall_mem_of_set here others calm)
  case taken =>
    rw [gSeq, messages, tasks]
    intro m within taking
    rcases List.mem_append.1 within with old | new
    · rcases List.mem_or_eq_of_mem_set old with old | rfl
      · exact numbered.taken m old taking
      · exact absurd taking calm'
    · exact absurd taking (untaking m new)

end Quiet

/-- Nothing changes for the numbers when a task moves and keeps its own. -/
theorem number_moved (here : s.tasks[i]? = some t) (tasks : s'.tasks = s.tasks.set i t')
    (seq : t'.seq = t.seq) (node : t'.node = t.node) (sends : s'.sends = s.sends) :
    (∀ n q, Number s' n q ↔ Number s n q) ∧ s'.messages = s.messages := by
  rw [← List.append_nil (s.tasks.set i t')] at tasks
  exact ⟨number_iff here tasks node seq (by simp) sends, messages_eq here tasks seq (by simp) sends⟩

/-! ## What a step does to the numbers -/

/-- A step of task `i` as the numbers see it. -/
inductive Numbering (s : Client N) (i : ℕ) (t : Task N) (s' : Client N) : Prop
  | halted (tasks : s'.tasks = s.tasks) (sends : s'.sends = s.sends) (gSeq : s'.gSeq = s.gSeq)
  | quiet {t' : Task N} {added : List (Task N)} (tasks : s'.tasks = s.tasks.set i t' ++ added)
      (node : t'.node = t.node) (seq : t'.seq = t.seq) (calm : ¬ t.Taking) (calm' : ¬ t'.Taking)
      (fresh : ∀ m ∈ added, m.pc = .before .queued) (sends : s'.sends = s.sends)
      (gSeq : s'.gSeq = s.gSeq)
  | loaded (pc : t.pc = .before .load) (eq : s' = s.goto i t (.before (.reload s.gSeq)))
  | reloaded {seq : UInt32} (pc : t.pc = .before (.reload seq))
      (eq : s' = s.goto i t (.before (.store seq s.gSeq)))
  | stored {seq loaded : UInt32} (pc : t.pc = .before (.store seq loaded))
      (eq : s' = { s with gSeq := nextSeq loaded }.goto i t (.before (.send seq)))
  | sent {e : Send N} {t' : Task N} (tasks : s'.tasks = s.tasks.set i t')
      (sends : s'.sends = s.sends ++ [e]) (pc : t.pc = .before (.send e.call.seq))
      (node : e.node = t.node) (free : t'.seq = none) (calm' : ¬ t'.Taking)
      (gSeq : s'.gSeq = s.gSeq)

theorem Numbering.moved (tasks : s'.tasks = s.tasks.set i t') (node : t'.node = t.node)
    (seq : t'.seq = t.seq) (calm : ¬ t.Taking) (calm' : ¬ t'.Taking) (sends : s'.sends = s.sends)
    (gSeq : s'.gSeq = s.gSeq) : Numbering s i t s' :=
  .quiet (tasks.trans (List.append_nil _).symm) node seq calm calm' (by simp) sends gSeq

variable [DecidableEq N]

theorem TaskEvent.numbering (event : TaskEvent T s i t s') : Numbering s i t s' := by
  cases event with
  | loaded pc => exact .loaded pc rfl
  | reloaded pc => exact .reloaded pc rfl
  | stored pc => exact .stored pc rfl
  | sent pc own | unsent pc own =>
      exact .sent rfl rfl (own.1 ▸ pc) rfl rfl (by simp [Task.Taking]) rfl
  | cut | died | orphan | lost | stray => exact .halted rfl rfl rfl
  | spawned pc =>
      refine .quiet rfl rfl ?_ ?_ ?_ (by simp [Task.fresh]) rfl rfl <;>
        simp [Task.seq, Task.Taking, pc]
  | started pc | checked pc | refused pc | fetched pc | dialled pc | drawn pc | entered pc
  | skipped pc | left pc | displayed pc | reported pc | leaf pc | opened pc | unlinked pc
  | found pc | lowered pc | emptied pc | topped pc | detached pc | erased pc | closed pc
  | emplaced pc | locked pc | unlocked pc | waited pc =>
      refine .moved rfl rfl ?_ ?_ ?_ rfl rfl <;> simp [Task.seq, Task.Taking, pc]

section Step

variable (numbered : Numbered T s) (here : s.tasks[i]? = some t)
include here

omit [DecidableEq N] in
/-- A task that starts to take a number adds it to the others. -/
theorem number_loaded (pc : t.pc = .before .load) (n : N) (q : UInt32) :
    Number (s.goto i t (.before (.reload s.gSeq))) n q ↔
      Number s n q ∨ n = t.node ∧ q = s.gSeq := by
  have inside : i < s.tasks.length := (List.getElem?_eq_some_iff.1 here).1
  constructor
  · rintro (logged | ⟨m, within, own, number⟩)
    · exact .inl (.inl logged)
    · rcases List.mem_or_eq_of_mem_set within with old | rfl
      · exact .inl (.inr ⟨m, old, own, number⟩)
      · exact .inr ⟨own.symm, (Option.some.inj number).symm⟩
  · rintro (number | ⟨rfl, rfl⟩)
    · have others : ∀ m ∈ s.tasks.set i { t with pc := .before (.reload s.gSeq) },
          m ∈ (s.goto i t (.before (.reload s.gSeq))).tasks := fun _ => id
      refine (number.of_set here others fun _ => id).resolve_right ?_
      simp [Task.seq, pc]
    · exact .inr ⟨_, List.mem_set inside _, rfl, rfl⟩

omit [DecidableEq N] in
theorem messages_loaded (pc : t.pc = .before .load) :
    (s.goto i t (.before (.reload s.gSeq))).messages = s.messages + 1 := by
  have moved := total_set (f := Task.flying) here { t with pc := .before (.reload s.gSeq) }
  have before : t.flying = 0 := by simp [Task.flying, Task.seq, pc]
  have after : Task.flying { t with pc := .before (.reload s.gSeq) } = 1 := rfl
  simp only [Client.messages, Client.goto]
  omega

omit [DecidableEq N] in
/-- A number that is sent stays what it is. -/
theorem number_sent {e : Send N} (tasks : s'.tasks = s.tasks.set i t')
    (sends : s'.sends = s.sends ++ [e]) (pc : t.pc = .before (.send e.call.seq))
    (node : e.node = t.node) (free : t'.seq = none) (n : N) (q : UInt32) :
    Number s' n q ↔ Number s n q := by
  have member : t ∈ s.tasks := List.mem_of_getElem? here
  have own : t.seq = some e.call.seq := by rw [Task.seq, pc]
  constructor
  · rintro (⟨e', logged, same, number⟩ | ⟨m, within, same, number⟩)
    · rw [sends] at logged
      rcases List.mem_append.1 logged with old | new
      · exact .inl ⟨e', old, same, number⟩
      · obtain rfl := List.mem_singleton.1 new
        exact .inr ⟨t, member, node ▸ same, number ▸ own⟩
    · rw [tasks] at within
      rcases List.mem_or_eq_of_mem_set within with old | rfl
      · exact .inr ⟨m, old, same, number⟩
      · rw [free] at number
        cases number
  · intro number
    have others : ∀ m ∈ s.tasks.set i t', m ∈ s'.tasks := by simp [tasks]
    rcases number.of_set here others (by simp +contextual [sends]) with kept | ⟨rfl, taken⟩
    · exact kept
    · rw [own, Option.some.injEq] at taken
      exact .inl ⟨e, by simp [sends], node, taken⟩

omit [DecidableEq N] in
theorem messages_sent {e : Send N} (tasks : s'.tasks = s.tasks.set i t')
    (sends : s'.sends = s.sends ++ [e]) (pc : t.pc = .before (.send e.call.seq))
    (free : t'.seq = none) : s'.messages = s.messages := by
  have moved := total_set (f := Task.flying) here t'
  have before : t.flying = 1 := by simp [Task.flying, Task.seq, pc]
  have after : t'.flying = 0 := by simp [Task.flying, free]
  simp only [Client.messages, tasks, sends, List.length_append, List.length_singleton]
  omega

end Step

/-! ## Taking numbers alone -/

section Preserved

variable (numbered : Numbered T s) (sound : Sound T s) (here : s.tasks[i]? = some t)
include numbered

omit [DecidableEq N] in
theorem Numbered.of_iff (number : ∀ n q, Number s' n q ↔ Number s n q)
    (messages : s'.messages = s.messages)
    (free : (∀ t ∈ s'.tasks, ¬ t.Taking) → s'.gSeq.toNat = s.messages)
    (taken : ∀ t ∈ s'.tasks, t.Taking → t.seq = some s'.gSeq ∧ s'.gSeq.toNat + 1 = s.messages ∧
      ∀ seq loaded, t.pc = .before (.store seq loaded) → loaded = s'.gSeq) : Numbered T s' where
  below := by simpa only [number, messages] using numbered.below
  unique := by simpa only [number] using numbered.unique
  later := by simpa only [number] using numbered.later
  free := by rwa [messages]
  taken := by rwa [messages]

omit [DecidableEq N] in
theorem Numbered.halted (tasks : s'.tasks = s.tasks) (sends : s'.sends = s.sends)
    (gSeq : s'.gSeq = s.gSeq) : Numbered T s' := by
  refine numbered.of_iff (fun n q => ?_) ?_ ?_ ?_
  · simp [Number, tasks, sends]
  · simp [Client.messages, tasks, sends]
  · rw [tasks, gSeq]
    exact numbered.free
  · rw [tasks, gSeq]
    exact numbered.taken

include here

omit [DecidableEq N] in
theorem Numbered.sent {e : Send N} (tasks : s'.tasks = s.tasks.set i t')
    (sends : s'.sends = s.sends ++ [e]) (pc : t.pc = .before (.send e.call.seq))
    (node : e.node = t.node) (free : t'.seq = none) (calm' : ¬ t'.Taking)
    (gSeq : s'.gSeq = s.gSeq) : Numbered T s' := by
  have calm : ¬ t.Taking := by simp [Task.Taking, pc]
  refine numbered.of_iff (number_sent here tasks sends pc node free)
    (messages_sent here tasks sends pc free) (fun none => ?_) ?_
  · rw [gSeq]
    exact numbered.free (forall_mem_of_set here (tasks ▸ none) calm)
  · rw [gSeq, tasks]
    exact forall_mem_set numbered.taken (fun taking => absurd taking calm') i

omit [DecidableEq N] in
theorem Numbered.reloaded {seq : UInt32} (pc : t.pc = .before (.reload seq)) :
    Numbered T (s.goto i t (.before (.store seq s.gSeq))) := by
  have member : t ∈ s.tasks := List.mem_of_getElem? here
  obtain ⟨own, next, -⟩ := numbered.taken t member (by simp [Task.Taking, pc])
  have same : Task.seq { t with pc := .before (.store seq s.gSeq) } = t.seq := by
    simp [Task.seq, pc]
  obtain ⟨number, messages⟩ := number_moved here (s.goto_tasks i t _) same rfl rfl
  refine numbered.of_iff number messages (fun none => ?_) ?_
  · have inside : i < s.tasks.length := (List.getElem?_eq_some_iff.1 here).1
    exact absurd trivial (none _ (List.mem_set inside _))
  · refine forall_mem_set numbered.taken (fun _ => ⟨same.trans own, next, ?_⟩) i
    rintro _ _ ⟨⟩
    rfl

omit numbered in
include sound in
omit here in
theorem Sound.sent_above {n p : N} {q : UInt32} (number : Number s n q)
    (above : T.parent n = some p) : s.SentOk p := by
  have tasked : n ∈ s.nodes := by
    rcases number with ⟨e, logged, rfl, -⟩ | ⟨m, member, rfl, -⟩
    · exact sound.log.tasked e logged
    · exact List.mem_map_of_mem member
  obtain ⟨m, member, rfl⟩ := List.mem_map.1 tasked
  exact sound.log.above m member p above

include sound

/-- The value loaded last is the one before it, and its successor does not wrap around. -/
theorem Numbered.stored {seq loaded : UInt32} (pc : t.pc = .before (.store seq loaded))
    (few : s.messages < 2 ^ 32 - 1) :
    Numbered T ({ s with gSeq := nextSeq loaded }.goto i t (.before (.send seq))) := by
  have member : t ∈ s.tasks := List.mem_of_getElem? here
  obtain ⟨own, next, loads⟩ := numbered.taken t member (by simp [Task.Taking, pc])
  obtain rfl := loads seq loaded pc
  have same : Task.seq { t with pc := .before (.send seq) } = t.seq := by simp [Task.seq, pc]
  obtain ⟨number, messages⟩ := number_moved here
    (Client.goto_tasks { s with gSeq := nextSeq s.gSeq } i t _) same rfl rfl
  refine numbered.of_iff number messages (fun _ => ?_) ?_
  · rw [← next] at few ⊢
    exact nextSeq_toNat few
  · refine forall_mem_set_of_ne (fun j m apart there taking => ?_) fun taking => taking.elim
    -- Two tasks that take a number at once would have the same one.
    have other := List.mem_of_getElem? there
    refine absurd ?_ (sound.pool.node_ne apart here there)
    exact numbered.unique _ _ s.gSeq (.inr ⟨m, other, rfl, (numbered.taken m other taking).1⟩)
      (.inr ⟨t, member, rfl, own⟩)

theorem Numbered.loaded (pc : t.pc = .before .load) (alone : ∀ m ∈ s.tasks, ¬ m.Taking) :
    Numbered T (s.goto i t (.before (.reload s.gSeq))) := by
  have member : t ∈ s.tasks := List.mem_of_getElem? here
  have messages := messages_loaded here pc
  have gSeq := numbered.free alone
  have number := number_loaded here pc
  constructor
  case below =>
    intro n q has
    rw [messages]
    rcases (number n q).1 has with old | ⟨-, rfl⟩
    · exact (numbered.below n q old).trans (Nat.lt_succ_self _)
    · omega
  case unique =>
    intro n m q has has'
    rcases (number n q).1 has with old | ⟨rfl, rfl⟩ <;>
      rcases (number m _).1 has' with old' | ⟨rfl, same⟩
    · exact numbered.unique n m q old old'
    · have := numbered.below n q old
      rw [same] at this
      omega
    · have := numbered.below m _ old'
      omega
    · rfl
  case later =>
    intro n p q r above has has'
    rcases (number n q).1 has with old | ⟨rfl, rfl⟩
    · rcases (number p r).1 has' with old' | ⟨rfl, rfl⟩
      · exact numbered.later n p q r above old old'
      · -- A child has a number only when its parent was sent.
        obtain ⟨e, logged, same, -⟩ := sound.sent_above old above
        exact absurd (same ▸ List.mem_map_of_mem logged)
          (sound.log.unsent t member .load pc (by simp))
    · rcases (number p r).1 has' with old' | ⟨rfl, rfl⟩
      · rw [UInt32.lt_iff_toNat_lt, gSeq]
        exact numbered.below p r old'
      · exact absurd above T.parent_ne_self
  case free =>
    intro none
    have inside : i < s.tasks.length := (List.getElem?_eq_some_iff.1 here).1
    exact absurd trivial (none _ (List.mem_set inside _))
  case taken =>
    refine forall_mem_set (fun m old taking => absurd taking (alone m old)) (fun _ => ?_) i
    exact ⟨rfl, by rw [messages]; exact congrArg (· + 1) gSeq, by simp⟩

end Preserved

/-- A step that does not break into the taking of a number keeps the numbers in order, as
long as there are fewer than `2 ^ 32 - 1` of them. -/
theorem Numbering.preserved (numbering : Numbering s i t s') (sound : Sound T s)
    (here : s.tasks[i]? = some t)
    (alone : t.pc = .before .load → ∀ m ∈ s.tasks, ¬ m.Taking) :
    s.messages ≤ s'.messages ∧
      (s'.messages < 2 ^ 32 - 1 → Numbered T s → Numbered T s') := by
  cases numbering with
  | halted tasks sends gSeq =>
      have messages : s'.messages = s.messages := by simp [Client.messages, tasks, sends]
      exact ⟨messages.ge, fun _ numbered => numbered.halted tasks sends gSeq⟩
  | @quiet t' added tasks node seq calm calm' fresh sends gSeq =>
      have unnumbered : ∀ m ∈ added, m.seq = none := fun m new => by simp [Task.seq, fresh m new]
      refine ⟨(messages_eq here tasks seq unnumbered sends).ge, fun _ numbered => ?_⟩
      refine numbered.quiet here tasks node seq unnumbered sends calm calm' (fun m new => ?_) gSeq
      simp [Task.Taking, fresh m new]
  | loaded pc eq =>
      subst eq
      exact ⟨by simp [messages_loaded here pc], fun _ numbered =>
        numbered.loaded sound here pc (alone pc)⟩
  | @reloaded q pc eq =>
      subst eq
      have seq : Task.seq { t with pc := .before (.store q s.gSeq) } = t.seq := by
        simp [Task.seq, pc]
      obtain ⟨-, messages⟩ := number_moved here (s.goto_tasks i t _) seq rfl rfl
      exact ⟨messages.ge, fun _ numbered => numbered.reloaded here pc⟩
  | @stored q loaded pc eq =>
      subst eq
      have seq : Task.seq { t with pc := .before (.send q) } = t.seq := by simp [Task.seq, pc]
      obtain ⟨-, messages⟩ := number_moved here
        (Client.goto_tasks { s with gSeq := nextSeq loaded } i t _) seq rfl rfl
      exact ⟨messages.ge, fun few numbered => numbered.stored sound here pc (messages ▸ few)⟩
  | sent tasks sends pc node free calm' gSeq =>
      refine ⟨(messages_sent here tasks sends pc free).ge, fun _ numbered => ?_⟩
      exact numbered.sent here tasks sends pc node free calm' gSeq

/-! ## Runs -/

variable (T s) in
/-- What is asked of the numbers. -/
structure SequenceOk : Prop where
  /-- The numbers of the messages sent so far are pairwise distinct. -/
  distinct : (s.sends.map (·.call.seq)).Nodup
  /-- The same with the messages that are being sent. -/
  unique : ∀ n m q, Number s n q → Number s m q → n = m
  /-- The number of a child is greater than that of its parent. -/
  later : ∀ n p q r, T.parent n = some p → Number s n q → Number s p r → r < q

omit [DecidableEq N] in
theorem start_numbered (table : Slots PipeEnd) (pid : ℤ) (basePort : UInt16) :
    Numbered T (start T table pid basePort) := by
  have none : ∀ n q, ¬ Number (start T table pid basePort) n q := by
    simp [Number, start, Task.seq]
  refine ⟨fun n q has => absurd has (none n q), fun n m q has => absurd has (none n q),
    fun n p q r above has => absurd has (none n q), fun _ => ?_, ?_⟩
  · simp [start, Client.messages, Task.flying, Task.seq]
  · simp [start, Task.Taking]

/-- **When the tasks take their numbers one after the other, the numbers of fewer than
`2 ^ 32 - 1` messages are pairwise distinct, and a child's is greater than its parent's.** -/
theorem sequence_ok {table : Slots PipeEnd} {pid : ℤ} {basePort : UInt16} {inputs : List Input}
    (alone : Along (step T) TakesAlone (start T table pid basePort) inputs)
    (reaches : run (step T) (start T table pid basePort) inputs = some s)
    (few : s.messages < 2 ^ 32 - 1) : SequenceOk T s := by
  obtain ⟨sound, carried⟩ : Sound T s ∧ (s.messages < 2 ^ 32 - 1 → Numbered T s) := by
    refine alone.induction (I := fun s => Sound T s ∧ (s.messages < 2 ^ 32 - 1 → Numbered T s))
      ⟨start_sound table pid basePort, fun _ => start_numbered table pid basePort⟩ ?_ reaches
    rintro s input s' apart ⟨sound, numbered⟩ stepped
    cases input with
    | task i choice =>
        obtain ⟨-, t, here, -, event⟩ := step_task stepped
        obtain ⟨grows, kept⟩ := event.numbering.preserved sound here (apart t here)
        exact ⟨sound.taskEvent here event, fun few => kept few (numbered (grows.trans_lt few))⟩
    | terminate kill waitpid =>
        obtain ⟨-, -, rfl⟩ := step_terminate stepped
        exact ⟨sound.of_fields rfl rfl rfl rfl rfl sound.log.ok, fun few =>
          (numbered few).halted rfl rfl rfl⟩
  have numbered := carried few
  refine ⟨?_, numbered.unique, numbered.later⟩
  have apart : s.sends.Nodup := sound.log.once.of_map _
  refine (List.nodup_map_iff_inj_on apart).2 fun e logged e' logged' same => ?_
  refine List.inj_on_of_nodup_map sound.log.once logged logged' ?_
  exact numbered.unique _ _ _ (.inl ⟨e, logged, rfl, rfl⟩) (.inl ⟨e', logged', rfl, same.symm⟩)

/-- The sample run takes its numbers one by one. -/
theorem sequence_ok_sample :
    ∃ s, run (step sampleTree) sampleStart sampleInputs = some s ∧ s.messages = 3 ∧
      SequenceOk sampleTree s := by
  have facts : ∀ s ∈ run (step sampleTree) sampleStart sampleInputs, s.messages = 3 := by
    decide +kernel
  obtain ⟨s, reaches⟩ : ∃ s, run (step sampleTree) sampleStart sampleInputs = some s :=
    Option.isSome_iff_exists.1 (by decide +kernel)
  have alone : Along (step sampleTree) TakesAlone
      (start sampleTree ⟨[some .other, some .other, some .other]⟩ 7 50000) sampleInputs := by
    decide +kernel
  have messages := facts s reaches
  exact ⟨s, reaches, messages, sequence_ok alone reaches (by omega)⟩

/-- Both children load `g_seq` before one of them stores its successor. -/
def clashInputs : List Input :=
  goOn 0 5 ++ [sampleSend 0 0] ++ goOn 0 6 ++
    [.task 1 (.start 1), .task 2 (.start 0)] ++ goOn 1 3 ++ goOn 2 3 ++ goOn 1 2 ++ goOn 2 2 ++
    [sampleSend 1 1, sampleSend 2 1] ++
    goOn 1 4 ++ goOn 2 5 ++ goOn 0 1

/-- Two children that take their numbers together send the same one. -/
theorem sequence_clash :
    ∃ s, run (step sampleTree) sampleStart clashInputs = some s ∧ s.Finished ∧ s.AllSent ∧
      s.messages = 3 ∧ s.sends.map (·.call.seq) = [0, 1, 1] ∧ ¬ SequenceOk sampleTree s := by
  have facts : ∀ s ∈ run (step sampleTree) sampleStart clashInputs,
      (s.tasks[0]?.map (·.pc) = some .exited) ∧ (∀ e ∈ s.sends, e.Success) ∧
        s.messages = 3 ∧ s.sends.map (·.call.seq) = [0, 1, 1] := by decide +kernel
  obtain ⟨s, reaches⟩ : ∃ s, run (step sampleTree) sampleStart clashInputs = some s :=
    Option.isSome_iff_exists.1 (by decide +kernel)
  obtain ⟨finished, all, messages, seqs⟩ := facts s reaches
  obtain ⟨t, first, ended⟩ := Option.map_eq_some_iff.1 finished
  refine ⟨s, reaches, ⟨t, first, ended⟩, all, messages, seqs, fun ok => ?_⟩
  exact absurd (seqs ▸ ok.distinct) (by decide)

end Enuwatch.Sync

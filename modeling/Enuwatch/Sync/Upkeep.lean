import Enuwatch.Sync.Books

/-!
# Every step keeps the books

The three parts of the invariant are carried step by step. Most steps only move one task
to another program point (`Books.move`); what remains are the steps that write: a node is
unlinked, a counter is made, lowered or dropped, a message is logged, a task is added.
-/

set_option autoImplicit false

namespace Enuwatch.Sync

open Enuwatch.Lib

section Congr

variable {N : Type} {T : Tree N} {s s' : Client N}
  (children : s'.children = s.children) (removed : s'.removed = s.removed)

include children removed in
theorem Visiting.congr {visits : List (N × List N)} :
    Visiting T s' visits ↔ Visiting T s visits := by
  induction visits with
  | nil => exact Iff.rfl
  | cons v path ih => simp only [Visiting, children, removed, ih]

include children removed in
theorem At.congr (pending : s'.pending = s.pending) (nodes : s'.nodes = s.nodes) (t : Task N) :
    At T s' t ↔ At T s t := by
  unfold At
  split <;> simp only [Rising, children, removed, pending, nodes, Visiting.congr children removed]

include children removed in
theorem Done.congr (pending : s'.pending = s.pending) (nodes : s'.nodes = s.nodes) (n : N) :
    Done T s' n ↔ Done T s n := by
  simp only [Done, children, removed, pending, nodes]

theorem At.append (m : Task N) {t : Task N} (located : At T s t) :
    At T { s with tasks := s.tasks ++ [m] } t := by
  have grows : s.nodes ⊆ ({ s with tasks := s.tasks ++ [m] } : Client N).nodes := by
    simp only [Client.nodes, List.map_append]
    exact List.subset_append_left ..
  unfold At at located ⊢
  split at located
  case h_1 seq visits pc =>
    have lists : ({ s with tasks := s.tasks ++ [m] } : Client N).children = s.children := rfl
    exact (Visiting.congr lists rfl).2 located
  case h_9 =>
    obtain ⟨entry, inner, whole, all⟩ := located
    exact ⟨entry, inner, whole, fun x below => (all x below).imp_right fun old => grows old⟩
  all_goals exact located

end Congr

variable {N : Type} [DecidableEq N] {T : Tree N} {s s' : Client N} {i : ℕ} {t t' : Task N}

/-- A task moves on and writes nothing. -/
theorem Books.move (books : Books T s) (here : s.tasks[i]? = some t) (node : t'.node = t.node)
    (tasks : s'.tasks = s.tasks.set i t') (children : s'.children = s.children)
    (pending : s'.pending = s.pending) (removed : s'.removed = s.removed)
    (sends : s'.sends = s.sends) (debt : ∀ p, t'.debt T p = t.debt T p)
    (closes : ∀ p, t'.closes p = t.closes p)
    (holds : ∀ p, t'.holds p ≤ t.holds p ∨
      t'.holds p ≤ 1 ∧ total (Task.holds · p) s.tasks = 0)
    (opened : t.Opened → t'.Opened) (beyond : t.Beyond → t'.Beyond) (located : At T s t')
    (done : t'.pc = .wait ∨ t'.pc = .exited → s.SentOk t.node → Done T s t.node) :
    Books T s' := by
  have nodes := nodes_of_set here node tasks
  have member : t ∈ s.tasks := List.mem_of_getElem? here
  have each : ∀ {P : Task N → Prop}, (∀ m ∈ s.tasks, P m) → P t' → ∀ m ∈ s'.tasks, P m :=
    fun all moved => tasks ▸ forall_mem_set all moved i
  have sentOk : ∀ n, s'.SentOk n ↔ s.SentOk n := by simp [Client.SentOk, sends]
  have owes : ∀ p, total (Task.debt T · p) s'.tasks = total (Task.debt T · p) s.tasks := by
    intro p
    have moved := total_set (f := (Task.debt T · p)) here t'
    rw [← tasks, debt] at moved
    omega
  constructor
  case sublist => rw [children]; exact books.sublist
  case removed => rw [children, removed]; exact books.removed
  case once => rw [removed]; exact books.once
  case count =>
    intro p c
    rw [pending, children, owes]
    exact books.count p c
  case owed =>
    rw [pending]
    refine each books.owed fun p => ?_
    rw [debt]
    exact books.owed t member p
  case live =>
    rw [pending, children]
    refine each books.live ?_
    rw [node]
    exact books.live t member
  case exclusive =>
    intro p
    have moved := total_set (f := (Task.holds · p)) here t'
    rw [← tasks] at moved
    have before := books.exclusive p
    rcases holds p with fewer | ⟨one, none⟩ <;> omega
  case opened =>
    rw [pending, nodes]
    intro p entry
    refine ⟨(books.opened p entry).1, each (books.opened p entry).2 fun own => ?_⟩
    exact opened ((books.opened p entry).2 t member (node ▸ own))
  case closed =>
    simp only [removed, sentOk, children, pending]
    intro x gone
    obtain ⟨sent, empty, zero, all⟩ := books.closed x gone
    exact ⟨sent, empty, zero, each all fun own => beyond (all t member (node ▸ own))⟩
  case located =>
    simp only [At.congr children removed pending nodes]
    exact each books.located located
  case drained =>
    intro x
    have moved := total_set (f := (Task.closes · x)) here t'
    rw [← tasks, closes] at moved
    rw [pending]
    intro zero inner
    have before := books.drained x zero inner
    omega
  case done =>
    simp only [Done.congr children removed pending nodes, sentOk]
    refine each books.done ?_
    rw [node]
    exact done

/-! ## Unlinking a node -/

section Unlink

variable {q x : N}

theorem mem_erase_children (books : Books T s) {y : N} :
    y ∈ (s.children q).erase x ↔ y ≠ x ∧ y ∈ s.children q :=
  ((books.sublist q).nodup (T.nodup_children q)).mem_erase_iff

/-- A display does not pass through a node whose mutex it does not hold. -/
theorem Visiting.unlink (above : T.parent x = some q) {visits : List (N × List N)}
    (free : q ∉ visits.map (·.1)) (visiting : Visiting T s visits) :
    Visiting T (s.unlink q x) visits := by
  induction visits with
  | nil => trivial
  | cons v path ih =>
      obtain ⟨rest, stays, chained, deeper⟩ := visiting
      simp only [List.map_cons, List.mem_cons, not_or] at free
      have other : v.1 ≠ x := by
        rintro rfl
        rcases chained with root | ⟨w, inside, parent⟩
        · exact T.ne_root_of_parent above root
        · rw [above, Option.some.injEq] at parent
          exact free.2 (parent ▸ List.mem_map_of_mem inside)
      refine ⟨?_, ?_, chained, ih free.2 deeper⟩
      · simpa [Client.unlink, Function.update_of_ne (Ne.symm free.1)] using rest
      · simpa [Client.unlink, other] using stays

theorem At.unlink (above : T.parent x = some q) (free : q ∉ t.locks) (apart : t.pc ≠ .detach x)
    (located : At T s t) : At T (s.unlink q x) t := by
  have grows : s.removed ⊆ (s.unlink q x).removed := List.subset_append_left ..
  have rising : ∀ {p}, Rising T s t p → Rising T (s.unlink q x) t p :=
    fun rising => ⟨rising.1, grows rising.2.1, rising.2.2⟩
  unfold At at located ⊢
  split at located
  case h_1 seq visits pc =>
    rw [Task.locks, pc] at free
    exact located.unlink above free
  case h_2 => exact located
  case h_3 => exact rising located
  case h_4 => exact rising located
  case h_5 p pc =>
    obtain ⟨up, zero, stays, inner⟩ := located
    have other : p ≠ x := fun same => apart (same ▸ pc)
    exact ⟨rising up, zero, by simpa [Client.unlink, other] using stays, inner⟩
  case h_6 => exact ⟨rising located.1, located.2.1, located.2.2.imp_right fun gone => grows gone⟩
  case h_7 => exact located
  case h_8 => exact located
  case h_9 rest pc =>
    rw [Task.locks, pc] at free
    have other : t.node ≠ q := by simpa [eq_comm] using free
    obtain ⟨entry, inner, whole, all⟩ := located
    exact ⟨entry, inner, (Function.update_of_ne other _ _).trans whole, all⟩
  case h_10 => exact located
  case h_11 => trivial

/-- Task `i` takes the node `x` off the list of `q`, and owes `q` a count from then on. -/
theorem Books.unlink (books : Books T s) (here : s.tasks[i]? = some t) (node : t'.node = t.node)
    (above : T.parent x = some q) (listed : x ∈ s.children q) (tasked : x ∈ s.nodes)
    (free : s.MutexFree q) (sent : s.SentOk x) (empty : s.children x = [])
    (zero : ∀ c, s.pending x = some c → c = 0)
    (debt : ∀ p, t'.debt T p = t.debt T p + if q = p then 1 else 0)
    (closes : ∀ p, t'.closes p = t.closes p) (holds : ∀ p, t'.holds p = t.holds p)
    (opened : t.Opened → t'.Opened) (beyond : t.Beyond → t'.Beyond)
    (own : ∀ m ∈ s.tasks.set i t', m.node = x → m.Beyond)
    (apart : ∀ j m, j ≠ i → s.tasks[j]? = some m → m.pc ≠ .detach x)
    (located : At T (s.unlink q x) t') (running : t'.pc ≠ .wait ∧ t'.pc ≠ .exited) :
    Books T { s.unlink q x with tasks := s.tasks.set i t' } := by
  have member : t ∈ s.tasks := List.mem_of_getElem? here
  have nodup := (books.sublist q).nodup (T.nodup_children q)
  have distinct : x ≠ q := fun same => T.parent_ne_self (same ▸ above)
  have nodes := map_set_of_eq (g := (·.node)) here node
  have entry : s.pending q ≠ none := by
    obtain ⟨m, inside, rfl⟩ := List.mem_map.1 tasked
    exact books.live m inside q above listed
  have others : ∀ p, p ≠ q → (s.unlink q x).children p = s.children p :=
    fun p other => Function.update_of_ne other _ _
  have here' : (s.unlink q x).children q = (s.children q).erase x := Function.update_self ..
  have fewer : ∀ p, (s.unlink q x).children p ⊆ s.children p := by
    intro p
    by_cases same : p = q
    · rw [same, here']
      exact List.erase_subset
    · rw [others p same]
      exact List.Subset.refl _
  constructor
  case sublist =>
    intro p
    show ((s.unlink q x).children p).Sublist _
    by_cases same : p = q
    · rw [same, here']
      exact List.erase_sublist.trans (books.sublist q)
    · rw [others p same]
      exact books.sublist p
  case removed =>
    intro y
    show y ∈ s.removed ++ [x] ↔ ∃ p, T.parent y = some p ∧ y ∉ (s.unlink q x).children p
    rw [List.mem_append, books.removed, List.mem_singleton]
    constructor
    · rintro (⟨p, parent, off⟩ | rfl)
      · exact ⟨p, parent, fun on => off (fewer p on)⟩
      · exact ⟨q, above, by rw [here', mem_erase_children books]; simp⟩
    · rintro ⟨p, parent, off⟩
      by_cases same : y = x
      · exact .inr same
      · refine .inl ⟨p, parent, fun on => off ?_⟩
        by_cases at_q : p = q
        · rw [at_q, here', mem_erase_children books]
          exact ⟨same, at_q ▸ on⟩
        · rwa [others p at_q]
  case once =>
    refine books.once.append (List.nodup_singleton x) ?_
    simp only [List.disjoint_singleton, books.removed, not_exists, not_and, not_not]
    intro p parent
    rw [above, Option.some.injEq] at parent
    exact parent ▸ listed
  case count =>
    intro p c known
    have before := books.count p c known
    have moved := total_set (f := (Task.debt T · p)) here t'
    rw [debt] at moved
    show c = ((s.unlink q x).children p).length + total (Task.debt T · p) (s.tasks.set i t')
    by_cases same : q = p
    · subst same
      rw [here', List.length_erase_of_mem listed]
      have := List.length_pos_of_mem listed
      simp only [if_true] at moved
      omega
    · rw [others p (Ne.symm same)]
      simp only [if_neg same] at moved
      omega
  case owed =>
    refine forall_mem_set books.owed (fun p owes => ?_) i
    by_cases same : q = p
    · exact same ▸ entry
    · rw [debt, if_neg same] at owes
      exact books.owed t member p owes
  case live =>
    refine forall_mem_set (fun m inside p parent on => ?_) (fun p parent on => ?_) i
    · exact books.live m inside p parent (fewer p on)
    · rw [node] at parent on
      exact books.live t member p parent (fewer p on)
  case exclusive =>
    intro p
    have moved := total_set (f := (Task.holds · p)) here t'
    have before := books.exclusive p
    rw [holds] at moved
    show total (Task.holds · p) (s.tasks.set i t') ≤ 1
    omega
  case opened =>
    intro p known
    obtain ⟨inside, all⟩ := books.opened p known
    refine ⟨by simpa [Client.nodes, nodes] using inside, ?_⟩
    exact forall_mem_set all (fun same => opened (all t member (node ▸ same))) i
  case closed =>
    intro y gone
    rcases List.mem_append.1 gone with old | new
    · obtain ⟨sentY, emptyY, zeroY, all⟩ := books.closed y old
      have other : y ≠ q := by
        rintro rfl
        rw [emptyY] at listed
        cases listed
      refine ⟨sentY, (others y other).trans emptyY, zeroY, ?_⟩
      exact forall_mem_set all (fun same => beyond (all t member (node ▸ same))) i
    · rw [List.mem_singleton.1 new]
      exact ⟨sent, (others x distinct).trans empty, zero, own⟩
  case located =>
    have same : ∀ m, At T { s.unlink q x with tasks := s.tasks.set i t' } m ↔
        At T (s.unlink q x) m :=
      At.congr rfl rfl rfl nodes
    simp only [same]
    refine forall_mem_set_of_ne (fun j m other there => ?_) located
    have inside := List.mem_of_getElem? there
    exact (books.located m inside).unlink above (free m inside) (apart j m other there)
  case drained =>
    intro y zeroY inner
    have moved := total_set (f := (Task.closes · y)) here t'
    have before := books.drained y zeroY inner
    rw [closes] at moved
    show total (Task.closes · y) (s.tasks.set i t') ≠ 0
    omega
  case done =>
    refine forall_mem_set (fun m inside ended sentM => ?_) (fun ended => ?_) i
    · obtain ⟨leaf, inner⟩ := books.done m inside ended sentM
      refine ⟨fun bare => List.mem_append_left _ (leaf bare), fun deep => ?_⟩
      obtain ⟨spawned, dropped⟩ := inner deep
      refine ⟨by simpa [Client.nodes, nodes] using spawned, fun none => ?_⟩
      obtain ⟨off, gone⟩ := dropped none
      refine ⟨List.eq_nil_of_subset_nil (off ▸ fewer m.node), ?_⟩
      exact gone.imp_right fun old => List.mem_append_left _ old
    · rcases ended with ended | ended
      · exact absurd ended running.1
      · exact absurd ended running.2

end Unlink

/-! ## Writing a counter -/

section Counter

variable {q : N} {v : Option ℕ}

theorem At.setPending (apart : t.pc ≠ .detach q ∧ t.pc ≠ .erase q)
    (past : v = none → t.node = q → t.pc ≠ .lock ∧ ∀ rest, t.pc ≠ .spawn rest)
    (located : At T s t) : At T (s.setPending q v) t := by
  have kept : ∀ {p}, p ≠ q → (s.setPending q v).pending p = s.pending p :=
    fun other => Function.update_of_ne other _ _
  have entry : (v = none → t.node ≠ q) → s.pending t.node ≠ none →
      (s.setPending q v).pending t.node ≠ none := by
    intro gone known
    by_cases same : t.node = q
    · rw [same]
      simpa [Client.setPending] using fun none => gone none same
    · rwa [kept same]
  unfold At at located ⊢
  split at located
  case h_1 seq visits pc =>
    have lists : (s.setPending q v).children = s.children := rfl
    exact (Visiting.congr lists rfl).2 located
  case h_2 => exact located
  case h_3 => exact located
  case h_4 => exact located
  case h_5 p pc =>
    obtain ⟨up, zero, stays⟩ := located
    exact ⟨up, (kept fun same => apart.1 (same ▸ pc)).trans zero, stays⟩
  case h_6 p pc =>
    obtain ⟨up, zero, gone⟩ := located
    exact ⟨up, (kept fun same => apart.2 (same ▸ pc)).trans zero, gone⟩
  case h_7 => exact located
  case h_8 pc => exact ⟨entry (fun none same => (past none same).1 pc) located.1, located.2⟩
  case h_9 rest pc =>
    exact ⟨entry (fun none same => (past none same).2 rest pc) located.1, located.2⟩
  case h_10 => exact located
  case h_11 => trivial

/-- Task `i` writes the counter of `q`. -/
theorem Books.setPending (books : Books T s) (here : s.tasks[i]? = some t)
    (node : t'.node = t.node)
    (count : ∀ c, v = some c →
      c = (s.children q).length + total (Task.debt T · q) (s.tasks.set i t'))
    (debt : ∀ p, p ≠ q → t'.debt T p = t.debt T p)
    (closes : ∀ p, p ≠ q → t'.closes p = t.closes p) (holds : ∀ p, t'.holds p ≤ t.holds p)
    (opened : t.Opened → t'.Opened) (beyond : t.Beyond → t'.Beyond)
    (entered : v ≠ none → q ∈ s.nodes ∧ ∀ m ∈ s.tasks.set i t', m.node = q → m.Opened)
    (dropped : v = none → s.children q = [] ∧ (q = T.root ∨ q ∈ s.removed) ∧
      (∀ m ∈ s.tasks.set i t', m.debt T q = 0) ∧
      ∀ m ∈ s.tasks, m.node = q → m.pc ≠ .lock ∧ ∀ rest, m.pc ≠ .spawn rest)
    (zero : q ∈ s.removed → ∀ c, v = some c → c = 0)
    (drained : v = some 0 → T.children q ≠ [] →
      total (Task.closes · q) (s.tasks.set i t') ≠ 0)
    (apart : ∀ j m, j ≠ i → s.tasks[j]? = some m → m.pc ≠ .detach q ∧ m.pc ≠ .erase q)
    (located : At T (s.setPending q v) t')
    (done : t'.pc = .wait ∨ t'.pc = .exited → s.SentOk t.node → Done T (s.setPending q v) t.node) :
    Books T { s.setPending q v with tasks := s.tasks.set i t' } := by
  have member : t ∈ s.tasks := List.mem_of_getElem? here
  have nodes := map_set_of_eq (g := (·.node)) here node
  have others : ∀ p, p ≠ q → (s.setPending q v).pending p = s.pending p :=
    fun p other => Function.update_of_ne other _ _
  have here' : (s.setPending q v).pending q = v := Function.update_self ..
  constructor
  case sublist => exact books.sublist
  case removed => exact books.removed
  case once => exact books.once
  case count =>
    intro p c known
    replace known : (s.setPending q v).pending p = some c := known
    by_cases same : p = q
    · subst same
      exact count c (here'.symm.trans known)
    · rw [others p same] at known
      have before := books.count p c known
      have moved := total_set (f := (Task.debt T · p)) here t'
      rw [debt p same] at moved
      show c = (s.children p).length + total (Task.debt T · p) (s.tasks.set i t')
      omega
  case owed =>
    intro m inside p owes
    show (s.setPending q v).pending p ≠ none
    by_cases same : p = q
    · subst same
      rw [here']
      intro none
      exact owes ((dropped none).2.2.1 m inside)
    · rw [others p same]
      rcases List.mem_or_eq_of_mem_set inside with old | rfl
      · exact books.owed m old p owes
      · exact books.owed t member p (debt p same ▸ owes)
  case live =>
    have all : ∀ m ∈ s.tasks, ∀ p, T.parent m.node = some p → m.node ∈ s.children p →
        (s.setPending q v).pending p ≠ none := by
      intro m inside p parent on
      by_cases same : p = q
      · subst same
        rw [here']
        intro none
        rw [(dropped none).1] at on
        cases on
      · rw [others p same]
        exact books.live m inside p parent on
    exact forall_mem_set all (node ▸ all t member) i
  case exclusive =>
    intro p
    have moved := total_set (f := (Task.holds · p)) here t'
    have before := books.exclusive p
    have less := holds p
    show total (Task.holds · p) (s.tasks.set i t') ≤ 1
    omega
  case opened =>
    intro p known
    replace known : (s.setPending q v).pending p ≠ none := known
    show p ∈ (s.tasks.set i t').map (·.node) ∧ _
    rw [nodes]
    by_cases same : p = q
    · subst same
      exact entered (here' ▸ known)
    · rw [others p same] at known
      obtain ⟨inside, all⟩ := books.opened p known
      exact ⟨inside, forall_mem_set all (fun own => opened (all t member (node ▸ own))) i⟩
  case closed =>
    intro x gone
    obtain ⟨sent, empty, zeroX, all⟩ := books.closed x gone
    refine ⟨sent, empty, fun c known => ?_,
      forall_mem_set all (fun own => beyond (all t member (node ▸ own))) i⟩
    replace known : (s.setPending q v).pending x = some c := known
    by_cases same : x = q
    · subst same
      exact zero gone c (here'.symm.trans known)
    · exact zeroX c ((others x same).symm.trans known)
  case located =>
    have same : ∀ m, At T { s.setPending q v with tasks := s.tasks.set i t' } m ↔
        At T (s.setPending q v) m := At.congr rfl rfl rfl nodes
    simp only [same]
    refine forall_mem_set_of_ne (fun j m other there => ?_) located
    have inside := List.mem_of_getElem? there
    exact (books.located m inside).setPending (apart j m other there)
      fun none own => (dropped none).2.2.2 m inside own
  case drained =>
    intro x known inner
    replace known : (s.setPending q v).pending x = some 0 := known
    show total (Task.closes · x) (s.tasks.set i t') ≠ 0
    by_cases same : x = q
    · subst same
      exact drained (here'.symm.trans known) inner
    · have before := books.drained x ((others x same).symm.trans known) inner
      have moved := total_set (f := (Task.closes · x)) here t'
      rw [closes x same] at moved
      omega
  case done =>
    have same : ∀ n, Done T { s.setPending q v with tasks := s.tasks.set i t' } n ↔
        Done T (s.setPending q v) n := Done.congr rfl rfl rfl nodes
    simp only [same]
    refine forall_mem_set (fun m inside ended sent => ?_) (by rw [node]; exact done) i
    obtain ⟨leaf, inner⟩ := books.done m inside ended sent
    refine ⟨leaf, fun deep => ⟨(inner deep).1, fun none => ?_⟩⟩
    by_cases at_q : m.node = q
    · rw [at_q, here'] at none
      rw [at_q]
      exact ⟨(dropped none).1, (dropped none).2.1⟩
    · exact (inner deep).2 ((others m.node at_q).symm.trans none)

end Counter

/-! ## Logging a message -/

theorem Books.log {e : Send N} (books : Books T s)
    (running : ∀ m ∈ s.tasks, m.node = e.node → m.pc ≠ .wait ∧ m.pc ≠ .exited) :
    Books T (s.log e) where
  sublist := books.sublist
  removed := books.removed
  once := books.once
  count := books.count
  owed := books.owed
  live := books.live
  exclusive := books.exclusive
  opened := books.opened
  closed := by
    intro x gone
    obtain ⟨sent, rest⟩ := books.closed x gone
    exact ⟨sent.log, rest⟩
  located := by
    have same : ∀ m, At T (s.log e) m ↔ At T s m := At.congr rfl rfl rfl rfl
    simp only [same]
    exact books.located
  drained := books.drained
  done := by
    have same : ∀ n, Done T (s.log e) n ↔ Done T s n := Done.congr rfl rfl rfl rfl
    simp only [same]
    intro m inside ended sent
    refine books.done m inside ended (sent.of_log fun own => ?_)
    obtain ⟨unwaited, unended⟩ := running m inside own.symm
    rcases ended with ended | ended
    · exact unwaited ended
    · exact unended ended

/-! ## Adding a task -/

section Fork

variable {child : N} {rest : List N}

/-- A task for a new child is queued. -/
theorem Books.append (books : Books T s) (log : Log T s) (untasked : child ∉ s.nodes) {p : N}
    (above : T.parent child = some p) (entry : s.pending p ≠ none) (group : Option ℕ) :
    Books T { s with tasks := s.tasks ++ [Task.fresh child group] } := by
  have nodes : ({ s with tasks := s.tasks ++ [Task.fresh child group] } :
      Client N).nodes = s.nodes ++ [child] := by
    simp [Client.nodes]
  have each : ∀ {P : Task N → Prop}, (∀ m ∈ s.tasks, P m) → P (.fresh child group) →
      ∀ m ∈ s.tasks ++ [Task.fresh child group], P m := by
    intro P old new m inside
    rcases List.mem_append.1 inside with before | added
    · exact old m before
    · rw [List.mem_singleton.1 added]
      exact new
  have still : ∀ f : Task N → ℕ, f (.fresh child group) = 0 →
      total f (s.tasks ++ [Task.fresh child group]) = total f s.tasks := by
    intro f none
    rw [total_append, total_cons, none, total_nil, Nat.zero_add, Nat.add_zero]
  constructor
  case sublist => exact books.sublist
  case removed => exact books.removed
  case once => exact books.once
  case count =>
    intro q c known
    rw [still (Task.debt T · q) rfl]
    exact books.count q c known
  case owed => exact each books.owed fun q owes => absurd rfl owes
  case live =>
    refine each books.live fun q parent on => ?_
    rw [Task.fresh_node, above, Option.some.injEq] at parent
    exact parent ▸ entry
  case exclusive =>
    intro q
    rw [still (Task.holds · q) (by simp [Task.holds, Task.accessor, Task.fresh])]
    exact books.exclusive q
  case opened =>
    intro q known
    obtain ⟨inside, all⟩ := books.opened q known
    refine ⟨nodes ▸ List.mem_append_left _ inside, each all fun own => ?_⟩
    rw [← own] at inside
    exact absurd inside untasked
  case closed =>
    intro x gone
    obtain ⟨sent, empty, zero, all⟩ := books.closed x gone
    refine ⟨sent, empty, zero, each all fun own => ?_⟩
    obtain ⟨e, logged, same, -⟩ := sent
    have tasked := log.tasked e logged
    rw [same, ← own] at tasked
    exact absurd tasked untasked
  case located =>
    exact each (fun m inside => (books.located m inside).append _) trivial
  case drained =>
    intro x zero inner
    rw [still (Task.closes · x) rfl]
    exact books.drained x zero inner
  case done =>
    refine each (fun m inside ended sent => ?_) fun ended => by rcases ended with h | h <;> cases h
    obtain ⟨leaf, inner⟩ := books.done m inside ended sent
    refine ⟨leaf, fun deep => ⟨fun x below => ?_, (inner deep).2⟩⟩
    rw [nodes]
    exact List.mem_append_left _ ((inner deep).1 x below)

theorem Books.fork (sound : Sound T s) (here : s.tasks[i]? = some t)
    (pc : t.pc = .spawn (child :: rest)) : Books T (s.fork i t child rest) := by
  have member : t ∈ s.tasks := List.mem_of_getElem? here
  have inside : i < s.tasks.length := (List.getElem?_eq_some_iff.1 here).1
  have unspawned : t.unspawned T = child :: rest := by rw [Task.unspawned, pc]
  have untasked : child ∉ s.nodes :=
    sound.pool.fresh t member child (unspawned ▸ List.mem_cons_self ..)
  have above : T.parent child = some t.node :=
    sound.pool.parent_of_unspawned member (unspawned ▸ List.mem_cons_self ..)
  have located := sound.books.located t member
  rw [At, pc] at located
  obtain ⟨entry, inner, whole, all⟩ := located
  have queued := sound.books.append sound.log untasked above entry (some i)
  have tasks : (s.fork i t child rest).tasks =
      (s.tasks ++ [Task.fresh child (some i)]).set i { t with pc := .spawn rest } := by
    rw [List.set_append_left _ _ inside]
    rfl
  refine queued.move (by rw [List.getElem?_append_left inside, here]) ?_ tasks rfl rfl rfl rfl
    ?_ ?_ ?_ ?_ ?_ ?_ ?_
  · rfl
  · intro p
    simp [Task.debt, pc]
  · intro p
    simp [Task.closes, pc]
  · intro p
    simp [Task.holds, Task.accessor, pc]
  · exact fun _ => trivial
  · simp [Task.Beyond, pc]
  · refine ⟨entry, inner, whole, fun x below => ?_⟩
    rcases all x below with later | tasked
    · rcases List.mem_cons.1 later with rfl | rest
      · exact .inr (by simp [Client.nodes])
      · exact .inl rest
    · refine .inr ?_
      simp only [Client.nodes, List.map_append]
      exact List.mem_append_left _ tasked
  · simp

end Fork

end Enuwatch.Sync

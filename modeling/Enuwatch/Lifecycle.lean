import Enuwatch.Lib.Transition
import Enuwatch.Spawn

/-!
# The life of process objects

A `Process` owns a child and three pipe descriptors as long as its `pid` is not -1. Objects are
made, moved, assigned and destroyed in any order, and the program calls `wait` and `terminate`
on them; the kernel answers `kill` and `waitpid` as it likes.

What a run does to children and descriptors is in its log. Each descriptor is closed once and
each child reaped once, and nothing is signalled after it was reaped (`LifeOk`), in every run in
which `wait` is not used to reap a child that an object owns and a call of `terminate` succeeds
(`CleanOp`, `life_cycle`): a `wait` that reaps gives up the descriptors without closing them,
and a `terminate` that fails closes them and keeps the `pid`.
-/

set_option autoImplicit false

namespace Enuwatch.Lifecycle

open Enuwatch.Lib

/-- A process object, and the number of the spawn that its fields go back to. -/
structure Object where
  proc : Process
  origin : ℕ
deriving DecidableEq, Repr

/-- What the program does to a child or to one of the descriptors of its object. -/
inductive Action where
  | signal (child : ℕ)
  | reap (child : ℕ)
  | close (child fd : ℕ)
deriving DecidableEq, Repr

def Action.child : Action → ℕ
  | .signal child => child
  | .reap child => child
  | .close child _ => child

/-- The objects, those that were destroyed included, what the spawns returned, and the log. -/
structure Heap where
  objects : List (Option Object) := []
  spawned : List Process := []
  log : List Action := []
deriving DecidableEq, Repr

/-- The descriptors of a process object that are not standard streams. -/
def descriptors (proc : Process) : List ℕ := [proc.inWr, proc.outRd, proc.errRd].filter (2 < ·)

namespace Object

/-- The object owns a child. -/
def Live (o : Object) : Prop := o.proc.pid ≠ -1

instance (o : Object) : Decidable o.Live := inferInstanceAs (Decidable (_ ≠ _))

/-- What a move leaves behind. -/
def released (o : Object) : Object := { o with proc := { o.proc with pid := -1 } }

/-- `Process::terminate`, and what it does. -/
def terminate (kill : Bool) (waitpid : Option WaitStatus) (o : Object) : Object × List Action :=
  let (_, proc, fds) := o.proc.terminate kill waitpid
  let actions := if o.proc.pid = -1 then [] else
    [.signal o.origin] ++ (if proc.pid = -1 then [.reap o.origin] else []) ++
      fds.map (.close o.origin)
  ({ o with proc }, actions)

end Object

/-- What the program does next, with the answers of the kernel. -/
inductive Op where
  /-- `Process()`, which leaves the descriptors as they are in memory. -/
  | construct (fields : Process)
  | spawn (table : Slots PipeEnd) (pid : ℕ)
  /-- `waitpid(-1)` reaps a child of the kernel's choice. -/
  | wait (i : ℕ) (waitpid : Option (ℕ × WaitStatus))
  | terminate (i : ℕ) (kill : Bool) (waitpid : Option WaitStatus)
  | moveConstruct (i : ℕ)
  | moveAssign (i j : ℕ) (kill : Bool) (waitpid : Option WaitStatus)
  | destroy (i : ℕ) (kill : Bool) (waitpid : Option WaitStatus)

namespace Heap

/-- The object with number `i`, unless it was destroyed. -/
def get (s : Heap) (i : ℕ) : Option Object := s.objects[i]?.join

def put (s : Heap) (i : ℕ) (o : Option Object) : Heap := { s with objects := s.objects.set i o }

def add (s : Heap) (o : Object) : Heap := { s with objects := s.objects ++ [some o] }

def act (s : Heap) (actions : List Action) : Heap := { s with log := s.log ++ actions }

end Heap

/-- One operation. -/
def step (s : Heap) : Op → Option Heap
  | .construct fields => some (s.add ⟨{ fields with pid := -1 }, 0⟩)
  | .spawn table pid =>
      if 0 < pid then
        let proc := processSpawn table pid
        some { s.add ⟨proc, s.spawned.length⟩ with spawned := s.spawned ++ [proc] }
      else none
  | .wait i waitpid =>
      (s.get i).bind fun o =>
        match waitpid with
        | none => some s
        | some (any, status) =>
            let child := if o.proc.pid = -1 then any else o.origin
            if child < s.spawned.length then
              some ((s.put i (some { o with proc := (o.proc.wait (some status)).2 })).act [.reap child])
            else none
  | .terminate i kill waitpid =>
      (s.get i).map fun o =>
        let (o', actions) := o.terminate kill waitpid
        (s.put i (some o')).act actions
  | .moveConstruct i => (s.get i).map fun o => (s.put i (some o.released)).add o
  | .moveAssign i j kill waitpid =>
      (s.get i).bind fun o => (s.get j).map fun src =>
        if i = j then s
        else ((s.put j (some src.released)).put i (some src)).act (o.terminate kill waitpid).2
  | .destroy i kill waitpid =>
      (s.get i).map fun o => (s.put i none).act (o.terminate kill waitpid).2

/-- What a run may have done to children and descriptors. -/
structure LifeOk (s : Heap) : Prop where
  once : ∀ k fd, s.log.count (.close k fd) ≤ 1
  /-- When all objects are gone, every descriptor was closed. -/
  closed : (∀ o ∈ s.objects, o = none) → ∀ k proc, s.spawned[k]? = some proc →
    ∀ fd ∈ [proc.inWr, proc.outRd, proc.errRd], 2 < fd → s.log.count (.close k fd) = 1
  reaped : ∀ k, s.log.count (.reap k) ≤ 1
  /-- A child that was reaped is not signalled. -/
  early : s.log.Pairwise fun a b => ∀ k, a = .reap k → b ≠ .signal k

/-- Some object owns child `k`. -/
def Heap.Owns (s : Heap) (k : ℕ) : Prop := ∃ i o, s.get i = some o ∧ o.Live ∧ o.origin = k

/-- A call of `wait` reaps no child that an object owns and none for the second time; a call of
`terminate` on an object that owns a child succeeds. -/
def CleanOp (s : Heap) : Op → Prop
  | .wait i waitpid => ∀ o, s.get i = some o → ∀ any status, waitpid = some (any, status) →
      ¬ o.Live ∧ ¬ s.Owns any ∧ .reap any ∉ s.log
  | .terminate i kill waitpid => ∀ o, s.get i = some o → o.Live →
      kill = true ∧ waitpid.isSome = true
  | _ => True

/-! ## The ledger of children -/

/-- The log of a heap in which the children in `owned` have an owner. -/
structure Ledger (owned : ℕ → Prop) (spawned : List Process) (log : List Action) : Prop where
  distinct : ∀ proc ∈ spawned, (descriptors proc).Nodup
  known : ∀ a ∈ log, a.child < spawned.length
  /-- Nothing was done to a child that has an owner. -/
  quiet : ∀ k, owned k → ∀ a ∈ log, a.child ≠ k
  once : ∀ k fd, log.count (.close k fd) ≤ 1
  closed : ∀ k proc, spawned[k]? = some proc → ¬ owned k → ∀ fd ∈ descriptors proc,
    log.count (.close k fd) = 1
  reaped : ∀ k, log.count (.reap k) ≤ 1
  early : log.Pairwise fun a b => ∀ k, a = .reap k → b ≠ .signal k

/-- What the end of an owner does to its child and its descriptors. -/
def retire (k : ℕ) (proc : Process) (reaps : Bool) : List Action :=
  .signal k :: (if reaps then [.reap k] else []) ++ (descriptors proc).map (.close k)

section Retire

variable {k : ℕ} {proc : Process} {reaps : Bool}

theorem child_of_mem_retire {a : Action} (member : a ∈ retire k proc reaps) : a.child = k := by
  simp only [retire, List.cons_append, List.mem_cons, List.mem_append, List.mem_map] at member
  rcases member with rfl | reap | ⟨fd, -, rfl⟩
  · rfl
  · split at reap
    · rw [List.mem_singleton.1 reap]
      rfl
    · cases reap
  · rfl

/-- The end of another owner. -/
theorem count_retire_of_ne {a : Action} (other : a.child ≠ k) :
    (retire k proc reaps).count a = 0 :=
  List.count_eq_zero_of_not_mem fun member => other (child_of_mem_retire member)

theorem count_close_retire (distinct : (descriptors proc).Nodup) {fd : ℕ} :
    (retire k proc reaps).count (.close k fd) = if fd ∈ descriptors proc then 1 else 0 := by
  have closes : ((descriptors proc).map (Action.close k)).count (.close k fd) =
      (descriptors proc).count fd :=
    List.count_map_of_injective _ _ (fun _ _ same => (Action.close.inj same).2) _
  have reap : (if reaps then [Action.reap k] else []).count (.close k fd) = 0 := by
    split <;> simp
  rw [retire, List.cons_append, List.count_cons_of_ne (by simp), List.count_append, reap, closes,
    Nat.zero_add]
  split
  · exact List.count_eq_one_of_mem distinct ‹_›
  · exact List.count_eq_zero_of_not_mem ‹_›

theorem count_reap_retire : (retire k proc reaps).count (.reap k) = if reaps then 1 else 0 := by
  have closes : ((descriptors proc).map (Action.close k)).count (.reap k) = 0 :=
    List.count_eq_zero_of_not_mem (by simp)
  rw [retire, List.cons_append, List.count_cons_of_ne (by simp), List.count_append, closes]
  split <;> simp

/-- The signal comes first. -/
theorem early_retire :
    (retire k proc reaps).Pairwise fun a b => ∀ j, a = .reap j → b ≠ .signal j := by
  have silent : ∀ b ∈ (if reaps then [Action.reap k] else []) ++
      (descriptors proc).map (.close k), ∀ j, b ≠ .signal j := by
    refine List.forall_mem_append.2 ⟨fun b reap j => ?_, by simp⟩
    split at reap <;> simp_all
  rw [retire, List.cons_append, List.pairwise_cons]
  exact ⟨by simp, List.pairwise_of_forall_mem_list fun a _ b later j _ => silent b later j⟩

end Retire

namespace Ledger

variable {owned owned' : ℕ → Prop} {spawned : List Process} {log : List Action}

/-- The same children have owners. -/
theorem congr (ledger : Ledger owned spawned log) (same : ∀ k, owned' k ↔ owned k) :
    Ledger owned' spawned log :=
  { ledger with
    quiet := fun k mine => ledger.quiet k ((same k).1 mine)
    closed := fun k proc here free => ledger.closed k proc here fun mine => free ((same k).2 mine) }

/-- Nothing was done to a child that has an owner, so it is in no count. -/
theorem count_eq_zero (ledger : Ledger owned spawned log) {a : Action} (mine : owned a.child) :
    log.count a = 0 :=
  List.count_eq_zero_of_not_mem fun member => ledger.quiet _ mine a member rfl

/-- A new child has an owner. -/
theorem spawn (ledger : Ledger owned spawned log) {proc : Process}
    (distinct : (descriptors proc).Nodup)
    (same : ∀ k, owned' k ↔ owned k ∨ k = spawned.length) :
    Ledger owned' (spawned ++ [proc]) log where
  distinct := List.forall_mem_append.2 ⟨ledger.distinct, by simpa using distinct⟩
  known a member := by
    have old := ledger.known a member
    simp only [List.length_append, List.length_singleton]
    omega
  quiet k mine a member := by
    rcases (same k).1 mine with mine | rfl
    · exact ledger.quiet k mine a member
    · exact (ledger.known a member).ne
  once := ledger.once
  closed k proc' here free := by
    have old : k ≠ spawned.length := fun new => free ((same k).2 (.inr new))
    have within : k < spawned.length := by
      have := (List.getElem?_eq_some_iff.1 here).1
      simp only [List.length_append, List.length_singleton] at this
      omega
    rw [List.getElem?_append_left within] at here
    exact ledger.closed k proc' here fun mine => free ((same k).2 (.inl mine))
  reaped := ledger.reaped
  early := ledger.early

/-- The owner of a child is gone, and has done what it had to. -/
theorem retire (ledger : Ledger owned spawned log) {k : ℕ} {proc : Process} {reaps : Bool}
    (mine : owned k) (here : spawned[k]? = some proc)
    (same : ∀ j, owned' j ↔ owned j ∧ j ≠ k) :
    Ledger owned' spawned (log ++ Lifecycle.retire k proc reaps) where
  distinct := ledger.distinct
  known := List.forall_mem_append.2 ⟨ledger.known, fun a member => by
    rw [child_of_mem_retire member]
    exact (List.getElem?_eq_some_iff.1 here).1⟩
  quiet j still := by
    obtain ⟨old, other⟩ := (same j).1 still
    refine List.forall_mem_append.2 ⟨ledger.quiet j old, fun a member => ?_⟩
    rw [child_of_mem_retire member]
    exact other.symm
  once j fd := by
    rw [List.count_append]
    by_cases own : j = k
    · subst own
      rw [ledger.count_eq_zero (a := .close j fd) mine,
        count_close_retire (ledger.distinct proc (List.mem_of_getElem? here))]
      split <;> simp
    · rw [count_retire_of_ne (a := .close j fd) own]
      exact ledger.once j fd
  closed j proc' there free fd listed := by
    rw [List.count_append]
    by_cases own : j = k
    · subst own
      obtain rfl := Option.some.inj (here.symm.trans there)
      rw [ledger.count_eq_zero (a := .close j fd) mine,
        count_close_retire (ledger.distinct proc (List.mem_of_getElem? here)), if_pos listed]
    · rw [count_retire_of_ne (a := .close j fd) own]
      exact ledger.closed j proc' there (fun old => free ((same j).2 ⟨old, own⟩)) fd listed
  reaped j := by
    rw [List.count_append]
    by_cases own : j = k
    · subst own
      rw [ledger.count_eq_zero (a := .reap j) mine, count_reap_retire]
      split <;> simp
    · rw [count_retire_of_ne (a := .reap j) own]
      exact ledger.reaped j
  early := by
    refine List.pairwise_append.2 ⟨ledger.early, early_retire, fun a old b new j reap signal => ?_⟩
    subst reap signal
    have child : j = k := child_of_mem_retire new
    exact ledger.quiet k mine _ old child

/-- A child without an owner is reaped. -/
theorem reap (ledger : Ledger owned spawned log) {k : ℕ} (known : k < spawned.length)
    (free : ¬ owned k) (first : .reap k ∉ log) : Ledger owned spawned (log ++ [.reap k]) where
  distinct := ledger.distinct
  known := List.forall_mem_append.2 ⟨ledger.known, by simpa [Action.child] using known⟩
  quiet j mine := by
    refine List.forall_mem_append.2 ⟨ledger.quiet j mine, fun a member => ?_⟩
    rw [List.mem_singleton.1 member]
    rintro rfl
    exact free mine
  once j fd := by simpa [List.count_append] using ledger.once j fd
  closed j proc there other fd listed := by
    simpa [List.count_append] using ledger.closed j proc there other fd listed
  reaped j := by
    rw [List.count_append]
    by_cases own : j = k
    · subst own
      rw [List.count_eq_zero_of_not_mem first]
      simp
    · have none : [Action.reap k].count (.reap j) = 0 :=
        List.count_eq_zero_of_not_mem (by simpa using own)
      rw [none]
      exact ledger.reaped j
  early := by
    refine List.pairwise_append.2 ⟨ledger.early, by simp, fun a old b new j _ signal => ?_⟩
    rw [List.mem_singleton.1 new] at signal
    cases signal

end Ledger

/-! ## Objects and owners -/

section Objects

variable {s s' : Heap} {i j : ℕ} {o o' src : Object} {kill : Bool} {waitpid : Option WaitStatus}

theorem Heap.lt_length (here : s.get i = some o) : i < s.objects.length := by
  by_contra outside
  simp [Heap.get, List.getElem?_eq_none (not_lt.1 outside)] at here

theorem Heap.get_put (here : s.get i = some o) (new : Option Object) (j : ℕ) :
    (s.put i new).get j = if j = i then new else s.get j := by
  have within := Heap.lt_length here
  by_cases same : j = i
  · subst same
    simp [Heap.get, Heap.put, within]
  · simp [Heap.get, Heap.put, same, List.getElem?_set_ne (Ne.symm same)]

theorem Heap.get_add (new : Object) (j : ℕ) :
    (s.add new).get j = if j = s.objects.length then some new else s.get j := by
  simp only [Heap.get, Heap.add, List.getElem?_append, List.getElem?_singleton]
  split_ifs <;> first | rfl | omega | simp_all

@[simp] theorem Heap.get_act (actions : List Action) : (s.act actions).get j = s.get j := rfl

theorem Object.not_live_released (o : Object) : ¬ o.released.Live := by
  simp [Object.Live, Object.released]

theorem terminate_of_live (live : o.Live) :
    (o.terminate kill waitpid).2 = retire o.origin o.proc (kill && waitpid.isSome) := by
  have alive : o.proc.pid ≠ -1 := live
  cases kill <;> cases waitpid <;>
    simp [Object.terminate, Process.terminate, Process.wait, retire, descriptors, alive]

theorem terminate_of_not_live (dead : ¬ o.Live) : o.terminate kill waitpid = (o, []) := by
  have gone : o.proc.pid = -1 := not_not.1 dead
  simp [Object.terminate, Process.terminate, gone]

/-- A successful `terminate` leaves no owner. -/
theorem terminate_not_live (clean : o.Live → kill = true ∧ waitpid.isSome = true) :
    ¬ (o.terminate kill waitpid).1.Live := by
  by_cases live : o.Live
  · obtain ⟨rfl, reaped⟩ := clean live
    obtain ⟨status, rfl⟩ := Option.isSome_iff_exists.1 reaped
    have alive : o.proc.pid ≠ -1 := live
    simp [Object.terminate, Process.terminate, Process.wait, Object.Live, alive]
  · rwa [terminate_of_not_live live]

/-- Some object other than `i` owns child `k`. -/
def Heap.OwnsBeside (s : Heap) (i k : ℕ) : Prop :=
  ∃ j o, j ≠ i ∧ s.get j = some o ∧ o.Live ∧ o.origin = k

/-- What holds between the operations of a clean run. -/
structure Kept (s : Heap) : Prop where
  proc : ∀ i o, s.get i = some o → o.Live → s.spawned[o.origin]? = some o.proc
  unique : ∀ i j o o', s.get i = some o → s.get j = some o' → o.Live → o'.Live →
    o.origin = o'.origin → i = j
  ledger : Ledger s.Owns s.spawned s.log

namespace Kept

/-- Live objects change places at most. -/
theorem carry (kept : Kept s) (source : ℕ → ℕ) (spawned : s'.spawned = s.spawned)
    (origin : ∀ i o, s'.get i = some o → o.Live → s.get (source i) = some o)
    (apart : ∀ i j o o', s'.get i = some o → s'.get j = some o' → o.Live → o'.Live →
      source i = source j → i = j)
    (ledger : Ledger s'.Owns s.spawned s'.log) : Kept s' := by
  refine ⟨fun i o here live => ?_, fun i j o o' here there live live' same => ?_, ?_⟩
  · rw [spawned]
    exact kept.proc _ o (origin i o here live) live
  · exact apart i j o o' here there live live'
      (kept.unique _ _ o o' (origin i o here live) (origin j o' there live') live live' same)
  · rwa [spawned]

theorem ownsBeside_iff (kept : Kept s) (here : s.get i = some o) (live : o.Live) (k : ℕ) :
    s.OwnsBeside i k ↔ s.Owns k ∧ k ≠ o.origin := by
  constructor
  · rintro ⟨j, o', other, there, live', rfl⟩
    exact ⟨⟨j, o', there, live', rfl⟩, fun same =>
      other (kept.unique j i o' o there here live' live same)⟩
  · rintro ⟨⟨j, o', there, live', rfl⟩, different⟩
    refine ⟨j, o', ?_, there, live', rfl⟩
    rintro rfl
    exact different (congrArg Object.origin (Option.some.inj (there.symm.trans here)))

theorem ownsBeside_iff_of_dead (here : s.get i = some o) (dead : ¬ o.Live) (k : ℕ) :
    s.OwnsBeside i k ↔ s.Owns k := by
  constructor
  · rintro ⟨j, o', -, there, live', rfl⟩
    exact ⟨j, o', there, live', rfl⟩
  · rintro ⟨j, o', there, live', rfl⟩
    refine ⟨j, o', ?_, there, live', rfl⟩
    rintro rfl
    exact dead (Option.some.inj (there.symm.trans here) ▸ live')

/-- The ledger when object `i` has terminated. -/
theorem finish (kept : Kept s) (here : s.get i = some o) (kill : Bool)
    (waitpid : Option WaitStatus) :
    Ledger (s.OwnsBeside i) s.spawned (s.log ++ (o.terminate kill waitpid).2) := by
  by_cases live : o.Live
  · rw [terminate_of_live live]
    exact kept.ledger.retire ⟨i, o, here, live, rfl⟩ (kept.proc i o here live)
      (kept.ownsBeside_iff here live)
  · rw [terminate_of_not_live live, List.append_nil]
    exact kept.ledger.congr (ownsBeside_iff_of_dead here live)

/-- Object `i` has terminated and owns nothing any more. -/
theorem put_finished (kept : Kept s) (here : s.get i = some o) (kill : Bool)
    (waitpid : Option WaitStatus) (new : Option Object) (dead : ∀ o' ∈ new, ¬ o'.Live) :
    Kept ((s.put i new).act (o.terminate kill waitpid).2) := by
  have others : ∀ j o', (s.put i new).get j = some o' → o'.Live → j ≠ i ∧ s.get j = some o' := by
    intro j o' there live
    rw [Heap.get_put here] at there
    split at there
    · exact absurd live (dead o' there)
    · exact ⟨‹_›, there⟩
  refine kept.carry id rfl (fun j o' there live => (others j o' there live).2)
    (fun _ _ _ _ _ _ _ _ same => same) ((kept.finish here kill waitpid).congr fun k => ?_)
  constructor
  · rintro ⟨j, o', there, live, rfl⟩
    obtain ⟨other, before⟩ := others j o' there live
    exact ⟨j, o', other, before, live, rfl⟩
  · rintro ⟨j, o', other, before, live, rfl⟩
    exact ⟨j, o', by rw [Heap.get_act, Heap.get_put here, if_neg other, before], live, rfl⟩

theorem add_dead (kept : Kept s) (dead : ¬ o.Live) : Kept (s.add o) := by
  have others : ∀ j o', (s.add o).get j = some o' → o'.Live → s.get j = some o' := by
    intro j o' there live
    rw [Heap.get_add] at there
    split at there
    · exact absurd (Option.some.inj there ▸ live) dead
    · exact there
  refine kept.carry id rfl others (fun _ _ _ _ _ _ _ _ same => same)
    (kept.ledger.congr fun k => ⟨?_, ?_⟩)
  · rintro ⟨j, o', there, live, rfl⟩
    exact ⟨j, o', others j o' there live, live, rfl⟩
  · rintro ⟨j, o', before, live, rfl⟩
    exact ⟨j, o', by rw [Heap.get_add, if_neg (Heap.lt_length before).ne, before], live, rfl⟩

theorem spawn (kept : Kept s) {proc : Process} (distinct : (descriptors proc).Nodup)
    (started : proc.pid ≠ -1) :
    Kept { s.add ⟨proc, s.spawned.length⟩ with spawned := s.spawned ++ [proc] } := by
  have get : ∀ j, Heap.get { s.add ⟨proc, s.spawned.length⟩ with spawned := s.spawned ++ [proc] } j =
      if j = s.objects.length then some ⟨proc, s.spawned.length⟩ else s.get j :=
    Heap.get_add _
  have old : ∀ j o', s.get j = some o' → o'.Live → o'.origin < s.spawned.length := fun j o' there live =>
    (List.getElem?_eq_some_iff.1 (kept.proc j o' there live)).1
  constructor
  case proc =>
    intro j o' there live
    rw [get] at there
    split at there
    · cases there
      simp
    · rw [List.getElem?_append_left (old j o' there live)]
      exact kept.proc j o' there live
  case unique =>
    intro i j o₁ o₂ here there live₁ live₂ same
    rw [get] at here there
    split at here
    · split at there
      · omega
      · cases here
        have := old j o₂ there live₂
        simp only at same
        omega
    · split at there
      · cases there
        have := old i o₁ here live₁
        simp only at same
        omega
      · exact kept.unique i j o₁ o₂ here there live₁ live₂ same
  case ledger =>
    refine kept.ledger.spawn distinct fun k => ⟨?_, ?_⟩
    · rintro ⟨j, o', there, live, rfl⟩
      rw [get] at there
      split at there
      · cases there
        exact .inr rfl
      · exact .inl ⟨j, o', there, live, rfl⟩
    · rintro (⟨j, o', there, live, rfl⟩ | rfl)
      · exact ⟨j, o', by rw [get, if_neg (Heap.lt_length there).ne, there], live, rfl⟩
      · exact ⟨s.objects.length, ⟨proc, s.spawned.length⟩, by rw [get, if_pos rfl], started, rfl⟩

/-- Object `j` hands what it owns over to object `i`, which owns nothing. -/
theorem handOver (kept : Kept s) (here : s.get i = some o) (there : s.get j = some src)
    (dead : ¬ o.Live) (different : i ≠ j) :
    Kept ((s.put j (some src.released)).put i (some src)) := by
  have get : ∀ k, ((s.put j (some src.released)).put i (some src)).get k =
      if k = i then some src else if k = j then some src.released else s.get k := by
    intro k
    have still : (s.put j (some src.released)).get i = some o := by
      rw [Heap.get_put there, if_neg different, here]
    rw [Heap.get_put still, Heap.get_put there]
  have origin : ∀ k o', ((s.put j (some src.released)).put i (some src)).get k = some o' →
      o'.Live → (k = i ∧ o' = src) ∨ k ≠ i ∧ k ≠ j ∧ s.get k = some o' := by
    intro k o' found live
    rw [get] at found
    split at found
    · exact .inl ⟨‹_›, (Option.some.inj found).symm⟩
    · split at found
      · exact absurd (Option.some.inj found ▸ live) src.not_live_released
      · exact .inr ⟨‹_›, ‹_›, found⟩
  refine kept.carry (fun k => if k = i then j else k) rfl
    (fun k o' found live => ?_) (fun k k' o₁ o₂ found found' live live' same => ?_)
    (kept.ledger.congr fun k => ⟨?_, ?_⟩)
  · rcases origin k o' found live with ⟨rfl, rfl⟩ | ⟨other, -, before⟩
    · simpa using there
    · simpa [other] using before
  · rcases origin k o₁ found live with ⟨rfl, -⟩ | ⟨other, beside, -⟩ <;>
      rcases origin k' o₂ found' live' with ⟨rfl, -⟩ | ⟨other', beside', -⟩
    · rfl
    · simp only [if_true, if_neg other'] at same
      exact absurd same.symm beside'
    · simp only [if_true, if_neg other] at same
      exact absurd same beside
    · simpa only [if_neg other, if_neg other'] using same
  · rintro ⟨k', o', found, live, rfl⟩
    rcases origin k' o' found live with ⟨-, rfl⟩ | ⟨-, -, before⟩
    · exact ⟨j, o', there, live, rfl⟩
    · exact ⟨k', o', before, live, rfl⟩
  · rintro ⟨k', o', before, live, rfl⟩
    have other : k' ≠ i := by
      rintro rfl
      exact dead (Option.some.inj (before.symm.trans here) ▸ live)
    by_cases own : k' = j
    · subst own
      obtain rfl := Option.some.inj (before.symm.trans there)
      exact ⟨i, o', by rw [get, if_pos rfl], live, rfl⟩
    · exact ⟨k', o', by rw [get, if_neg other, if_neg own, before], live, rfl⟩

/-- Move construction hands a child over to a new object. -/
theorem moveConstruct (kept : Kept s) (here : s.get i = some o) :
    Kept ((s.put i (some o.released)).add o) := by
  have within := Heap.lt_length here
  have fresh : (s.add o.released).get s.objects.length = some o.released := by simp [Heap.get_add]
  have still : (s.add o.released).get i = some o := by
    rw [Heap.get_add, if_neg within.ne, here]
  have moved := (kept.add_dead o.not_live_released).handOver fresh still o.not_live_released
    within.ne'
  have objects : ((s.objects ++ [some o.released]).set i (some o.released)).set s.objects.length
      (some o) = s.objects.set i (some o.released) ++ [some o] := by
    rw [List.set_append_left _ _ within, List.set_append_right _ _ (by simp)]
    simp
  simpa only [Heap.put, Heap.add, objects] using moved

/-- Move assignment ends what the target owns and hands the child of the source over. -/
theorem moveAssign (kept : Kept s) (here : s.get i = some o) (there : s.get j = some src)
    (different : i ≠ j) :
    Kept (((s.put j (some src.released)).put i (some src)).act (o.terminate kill waitpid).2) := by
  have ended : Kept ((s.put i (some o.released)).act (o.terminate kill waitpid).2) :=
    kept.put_finished here kill waitpid _ (by simpa using o.not_live_released)
  have target : ((s.put i (some o.released)).act (o.terminate kill waitpid).2).get i =
      some o.released := by
    rw [Heap.get_act, Heap.get_put here, if_pos rfl]
  have source : ((s.put i (some o.released)).act (o.terminate kill waitpid).2).get j =
      some src := by
    rw [Heap.get_act, Heap.get_put here, if_neg different.symm, there]
  have moved := ended.handOver target source o.not_live_released different
  have objects : (((s.objects.set i (some o.released)).set j (some src.released)).set i
      (some src)) = (s.objects.set j (some src.released)).set i (some src) := by
    rw [List.set_comm _ _ different, List.set_set]
  simpa only [Heap.put, Heap.act, objects] using moved

/-- An object that owns nothing reaps a child without an owner. -/
theorem reapAny (kept : Kept s) (here : s.get i = some o) (dead : ¬ o.Live) {any : ℕ}
    (known : any < s.spawned.length) (free : ¬ s.Owns any) (first : .reap any ∉ s.log)
    (new : Object) (still : ¬ new.Live) : Kept ((s.put i (some new)).act [.reap any]) := by
  have reaped : Kept (s.act [.reap any]) :=
    ⟨kept.proc, kept.unique, kept.ledger.reap known free first⟩
  have finished := reaped.put_finished here true none (some new)
    (by simpa using still)
  rw [terminate_of_not_live dead] at finished
  simpa only [Heap.put, Heap.act, List.append_nil] using finished

end Kept

end Objects

/-! ## Every clean run -/

/-- The descriptors that a spawn returns are different. -/
theorem descriptors_nodup (table : Slots PipeEnd) (pid : ℤ) :
    (descriptors (processSpawn table pid)).Nodup := by
  have first := ((table.alloc .rd).alloc .wr).alloc .rd |>.next_lt_next_alloc .wr
  have second := (((table.alloc .rd).alloc .wr).alloc .rd).alloc .wr |>.next_lt_next_alloc .rd
  have third := ((((table.alloc .rd).alloc .wr).alloc .rd).alloc .wr).alloc .rd
    |>.next_lt_next_alloc .wr
  refine List.Nodup.filter _ ?_
  simp only [processSpawn, Pipe.new, List.nodup_cons, List.mem_cons,
    List.not_mem_nil, not_or, not_false_eq_true, and_true, List.nodup_nil]
  omega

theorem Kept.step {s s' : Heap} {op : Op} (kept : Kept s) (clean : CleanOp s op)
    (stepped : step s op = some s') : Kept s' := by
  cases op with
  | construct fields =>
      cases stepped
      exact kept.add_dead (by simp [Object.Live])
  | spawn table pid =>
      simp only [Lifecycle.step] at stepped
      split at stepped
      · cases stepped
        refine kept.spawn (descriptors_nodup _ _) ?_
        show (pid : ℤ) ≠ -1
        omega
      · cases stepped
  | wait i waitpid =>
      obtain ⟨o, here, rest⟩ := Option.bind_eq_some_iff.1 stepped
      cases waitpid with
      | none =>
          cases rest
          exact kept
      | some result =>
          obtain ⟨any, status⟩ := result
          obtain ⟨dead, free, first⟩ := clean o here any status rfl
          have gone : o.proc.pid = -1 := not_not.1 dead
          simp only [gone, if_true] at rest
          split at rest
          · rename_i known
            cases rest
            exact kept.reapAny here dead known free first _ (by simp [Object.Live, Process.wait])
          · cases rest
  | terminate i kill waitpid =>
      obtain ⟨o, here, rfl⟩ := Option.map_eq_some_iff.1 stepped
      refine kept.put_finished here kill waitpid _ fun o' own => ?_
      exact Option.some.inj own ▸ terminate_not_live (clean o here)
  | moveConstruct i =>
      obtain ⟨o, here, rfl⟩ := Option.map_eq_some_iff.1 stepped
      exact kept.moveConstruct here
  | moveAssign i j kill waitpid =>
      obtain ⟨o, here, rest⟩ := Option.bind_eq_some_iff.1 stepped
      obtain ⟨src, there, rfl⟩ := Option.map_eq_some_iff.1 rest
      split
      · exact kept
      · exact kept.moveAssign here there ‹_›
  | destroy i kill waitpid =>
      obtain ⟨o, here, rfl⟩ := Option.map_eq_some_iff.1 stepped
      exact kept.put_finished here kill waitpid none (by simp)

theorem Kept.lifeOk {s : Heap} (kept : Kept s) : LifeOk s := by
  refine ⟨kept.ledger.once, fun gone k proc spawned fd listed above => ?_, kept.ledger.reaped,
    kept.ledger.early⟩
  refine kept.ledger.closed k proc spawned ?_ fd
    (List.mem_filter.2 ⟨listed, by simpa using above⟩)
  rintro ⟨i, o, here, -⟩
  have member := List.mem_of_getElem? (Option.join_eq_some_iff.1 here)
  cases gone _ member

/-- **In every run of clean operations each descriptor is closed once, each child is reaped at
most once, and no child is signalled after it was reaped.** -/
theorem life_cycle {ops : List Op} {s : Heap} (clean : Along step CleanOp {} ops)
    (reaches : run step {} ops = some s) : LifeOk s := by
  refine (clean.induction (I := Kept) ⟨by simp [Heap.get], by simp [Heap.get], ?_⟩ ?_ reaches).lifeOk
  · constructor <;> simp
  · exact fun s op s' clean kept stepped => kept.step clean stepped

/-! ## Sample runs -/

/-- A spawn when the three standard streams are open. -/
def sampleSpawn (pid : ℕ) : Op := .spawn ⟨[some .other, some .other, some .other]⟩ pid

/-- One child is terminated and its object assigned another child, which the destructor fails
to kill. -/
def cleanOps : List Op :=
  [sampleSpawn 7, .terminate 0 true (some (.signaled sigterm)), sampleSpawn 8,
    .moveAssign 0 1 true none, .destroy 1 true none, .destroy 0 false none]

theorem life_cycle_sample :
    ∃ s, run step {} cleanOps = some s ∧ s.objects = [none, none] ∧
      s.log = [.signal 0, .reap 0, .close 0 6, .close 0 7, .close 0 9, .signal 1, .close 1 6,
        .close 1 7, .close 1 9] ∧ LifeOk s := by
  have clean : Along step CleanOp {} cleanOps :=
    ⟨trivial, fun _ _ _ => ⟨rfl, rfl⟩, trivial, trivial, trivial, trivial, trivial⟩
  have facts : ∀ s ∈ run step {} cleanOps, s.objects = [none, none] ∧
      s.log = [.signal 0, .reap 0, .close 0 6, .close 0 7, .close 0 9, .signal 1, .close 1 6,
        .close 1 7, .close 1 9] := by decide +kernel
  obtain ⟨s, reaches⟩ : ∃ s, run step {} cleanOps = some s :=
    Option.isSome_iff_exists.1 (by decide +kernel)
  obtain ⟨gone, log⟩ := facts s reaches
  exact ⟨s, reaches, gone, log, life_cycle clean reaches⟩

/-- A child is waited for and its object destroyed: the descriptors stay open. -/
theorem wait_leaks :
    ∃ s, run step {} [sampleSpawn 7, .wait 0 (some (0, .exited 0)), .destroy 0 true none] = some s ∧
      s.objects = [none] ∧ s.log = [.reap 0] ∧ ¬ LifeOk s := by
  refine ⟨⟨[none], [⟨7, 6, 7, 9⟩], [.reap 0]⟩, by decide +kernel, rfl, rfl, fun ok => ?_⟩
  have closed := ok.closed (by simp) 0 ⟨7, 6, 7, 9⟩ rfl 6 (by simp) (by decide)
  simp at closed

end Enuwatch.Lifecycle

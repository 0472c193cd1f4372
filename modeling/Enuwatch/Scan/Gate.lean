import Enuwatch.Scan.Unreadable

/-!
# The readiness gate

While `scan_dir` still adds nodes, other threads may go through the tree with `iter_children`.
Such a call waits until its node is ready, and then visits the children one after the other with
the mutex of the node held. It may be nested in the callback of another call.

The scan closes a node after its last child, and whatever it does later leaves the children of the
node and their totals alone (`Sealed`). So for every interleaving a call that is past its wait
finds all children that the scan ever adds, in their order, with their totals set
(`readiness_gate`).
-/

set_option autoImplicit false

namespace Enuwatch.Scan

open Enuwatch.Lib

/-! ## The scan and its readers -/

/-- A call of `iter_children`, with what it has visited once it is past its wait. -/
structure IterCall where
  node : List Bytes
  visited : Option (List (List Bytes)) := none
deriving DecidableEq, Repr

/-- The tracked tree, what the scan has still to do, and the calls that each reader is in, the
innermost first. -/
structure Gate where
  tree : TrackedTree
  todo : List Event
  threads : List (List IterCall)
  /-- The nodes that some reader knows. -/
  reached : List (List Bytes) := [[]]
  /-- The calls that have returned, with what they visited. -/
  returned : List (List Bytes × List (List Bytes)) := []
  /-- The nodes that were visited, with their totals at that time. -/
  seen : List (List Bytes × Option UInt64) := []

/-- What the scan or one of the readers does next. -/
inductive Action where
  | scan
  | call (thread : ℕ) (node : List Bytes)
  | pass (thread : ℕ)
  | visit (thread : ℕ)
  | leave (thread : ℕ)
deriving DecidableEq, Repr

namespace Gate

/-- A new root and a number of readers. -/
def start (info : M) (events : List Event) (readers : ℕ) : Gate :=
  { tree := .new info, todo := events, threads := .replicate readers [] }

/-- The mutex of a node is taken by a call that is past its wait. -/
def locked (g : Gate) (node : List Bytes) : Bool :=
  g.threads.any fun calls => calls.any fun call => call.node = node && call.visited.isSome

/-- `add_child` and `unlock` take the mutex of their node, `shift_total` takes none. -/
def free (g : Gate) : Event → Bool
  | .addChild child _ => !g.locked child.dropLast
  | .unlock node => !g.locked node
  | _ => true

def ready (g : Gate) (node : List Bytes) : Bool := (g.tree.node node).any (·.ready)

/-- What the iterator points to after `k` children. -/
def childAt (g : Gate) (node : List Bytes) (k : ℕ) : Option (List Bytes) :=
  (g.tree.node node).bind (·.children[k]?)

def put (g : Gate) (thread : ℕ) (calls : List IterCall) : Gate :=
  { g with threads := g.threads.set thread calls }

end Gate

/-- A step of the scan or of a reader. A reader calls when it is in no call, or in the callback of
one. -/
def gateStep (g : Gate) : Action → Option Gate
  | .scan =>
      match g.todo with
      | [] => none
      | event :: todo =>
          if g.free event then some { g with tree := g.tree.apply event, todo } else none
  | .call thread node =>
      match g.threads[thread]? with
      | none => none
      | some calls =>
          if g.reached.contains node && (calls.head?.all fun call => call.visited.isSome) then
            some (g.put thread ({ node } :: calls))
          else none
  | .pass thread =>
      match g.threads[thread]? with
      | some (⟨node, none⟩ :: calls) =>
          if !g.locked node && g.ready node then some (g.put thread (⟨node, some []⟩ :: calls))
          else none
      | _ => none
  | .visit thread =>
      match g.threads[thread]? with
      | some (⟨node, some visited⟩ :: calls) =>
          match g.childAt node visited.length with
          | none => none
          | some child =>
              some { g.put thread (⟨node, some (visited ++ [child])⟩ :: calls) with
                reached := g.reached ++ [child]
                seen := g.seen ++ [(child, (g.tree.node child).map (·.total))] }
      | _ => none
  | .leave thread =>
      match g.threads[thread]? with
      | some (⟨node, some visited⟩ :: calls) =>
          match g.childAt node visited.length with
          | none => some { g.put thread calls with returned := g.returned ++ [(node, visited)] }
          | some _ => none
      | _ => none

/-! ## What a reader may count on -/

/-- The child that an event adds to a node. -/
def Event.childOf (names : List Bytes) : Event → Option (List Bytes)
  | .addChild child _ => if child.dropLast = names then some child else none
  | _ => none

/-- The children that a log adds to a node, in order. -/
def addedTo (events : List Event) (names : List Bytes) : List (List Bytes) :=
  events.filterMap (Event.childOf names)

/-- The readers have seen what the whole log adds to the tree. -/
structure GateOk (info : M) (events : List Event) (g : Gate) : Prop where
  /-- A call past its wait has all the children before it, and has visited the first of them. -/
  passed : ∀ calls ∈ g.threads, ∀ call ∈ calls, ∀ visited, call.visited = some visited →
    visited <+: addedTo events call.node ∧
      ∃ n, g.tree.node call.node = some n ∧ n.children = addedTo events call.node
  returned : ∀ call ∈ g.returned, call.2 = addedTo events call.1
  once : ∀ names, (addedTo events names).Nodup
  /-- The total of a visited node is its last one. -/
  seen : ∀ sight ∈ g.seen, sight.2.isSome ∧
    sight.2 = ((TrackedTree.replay info events).node sight.1).map (·.total)

/-! ## One step -/

/-- What a step can do. -/
inductive GateMove (g : Gate) : Gate → Prop
  | scan {event : Event} {todo : List Event} (due : g.todo = event :: todo) :
      GateMove g { g with tree := g.tree.apply event, todo }
  | call {thread : ℕ} {calls : List IterCall} (node : List Bytes)
      (here : g.threads[thread]? = some calls) : GateMove g (g.put thread ({ node } :: calls))
  | pass {thread : ℕ} {node : List Bytes} {calls : List IterCall}
      (here : g.threads[thread]? = some ({ node } :: calls)) (ready : g.ready node = true) :
      GateMove g (g.put thread (⟨node, some []⟩ :: calls))
  | visit {thread : ℕ} {node child : List Bytes} {visited : List (List Bytes)}
      {calls : List IterCall} (here : g.threads[thread]? = some (⟨node, some visited⟩ :: calls))
      (next : g.childAt node visited.length = some child) :
      GateMove g { g.put thread (⟨node, some (visited ++ [child])⟩ :: calls) with
        reached := g.reached ++ [child]
        seen := g.seen ++ [(child, (g.tree.node child).map (·.total))] }
  | leave {thread : ℕ} {node : List Bytes} {visited : List (List Bytes)} {calls : List IterCall}
      (here : g.threads[thread]? = some (⟨node, some visited⟩ :: calls))
      (over_ : g.childAt node visited.length = none) :
      GateMove g { g.put thread calls with returned := g.returned ++ [(node, visited)] }

theorem gateStep_move {g g' : Gate} {action : Action} (stepped : gateStep g action = some g') :
    GateMove g g' := by
  cases action with
  | scan =>
      simp only [gateStep] at stepped
      split at stepped
      · cases stepped
      · rename_i due
        split at stepped <;> cases stepped
        exact .scan due
  | call thread node =>
      simp only [gateStep] at stepped
      split at stepped
      · cases stepped
      · rename_i here
        split at stepped <;> cases stepped
        exact .call node here
  | pass thread =>
      simp only [gateStep] at stepped
      split at stepped
      · rename_i here
        split at stepped <;> cases stepped
        rename_i open_
        exact .pass here (Bool.and_eq_true_iff.1 open_).2
      · cases stepped
  | visit thread =>
      simp only [gateStep] at stepped
      split at stepped
      · rename_i here
        split at stepped <;> cases stepped
        rename_i next
        exact .visit here next
      · cases stepped
  | leave thread =>
      simp only [gateStep] at stepped
      split at stepped
      · rename_i here
        split at stepped <;> cases stepped
        rename_i over_
        exact .leave here over_
      · cases stepped

/-! ## What a line of the log leaves alone -/

/-- The event may change the children of a node, or the total of one of them. -/
def Event.alters (names : List Bytes) : Event → Bool
  | .addChild child _ => child = names || child.dropLast = names
  | .shiftTotal node _ => node.dropLast = names
  | _ => false

section Replay

variable {t : TrackedTree} {names child : List Bytes} {event : Event} {info : M}

theorem children_apply (other : event.alters names = false) :
    ((t.apply event).node names).map (·.children) = (t.node names).map (·.children) := by
  cases event with
  | addChild child info =>
      simp only [Event.alters, Bool.or_eq_false_iff, decide_eq_false_iff_not] at other
      obtain ⟨apart, below⟩ := other
      simp only [TrackedTree.apply, TrackedTree.addChild, Function.update_of_ne (Ne.symm apart),
        adjust_node, if_neg (Ne.symm below)]
  | shiftTotal node amount =>
      simp only [TrackedTree.apply, TrackedTree.shiftTotal, adjust_node]
      split <;> simp [Function.comp_def]
  | unlock node =>
      simp only [TrackedTree.apply, TrackedTree.unlock, adjust_node]
      split <;> simp [Function.comp_def]
  | warn path ftype => rfl

theorem total_apply (other : event.alters child.dropLast = false) :
    ((t.apply event).node child).map (·.total) = (t.node child).map (·.total) := by
  cases event with
  | addChild node info =>
      simp only [Event.alters, Bool.or_eq_false_iff, decide_eq_false_iff_not] at other
      have apart : child ≠ node := by
        rintro rfl
        exact other.2 rfl
      simp only [TrackedTree.apply, TrackedTree.addChild, Function.update_of_ne apart, adjust_node]
      split <;> simp [Function.comp_def]
  | shiftTotal node amount =>
      have apart : child ≠ node := by
        rintro rfl
        simp [Event.alters] at other
      simp only [TrackedTree.apply, TrackedTree.shiftTotal, adjust_node, if_neg apart]
  | unlock node =>
      simp only [TrackedTree.apply, TrackedTree.unlock, adjust_node]
      split <;> simp [Function.comp_def]
  | warn path ftype => rfl

/-- Only `unlock` makes a node ready. -/
theorem ready_apply (ready : ((t.apply event).node names).any (·.ready) = true) :
    (t.node names).any (·.ready) = true ∨ event = .unlock names := by
  cases event with
  | addChild child info =>
      simp only [TrackedTree.apply, TrackedTree.addChild] at ready
      by_cases same : names = child
      · subst same
        simp at ready
      · rw [Function.update_of_ne same, adjust_node] at ready
        split at ready
        · exact .inl (by simpa [Option.any_map, Function.comp_def] using ready)
        · exact .inl ready
  | shiftTotal node amount =>
      simp only [TrackedTree.apply, TrackedTree.shiftTotal, adjust_node] at ready
      split at ready
      · exact .inl (by simpa [Option.any_map, Function.comp_def] using ready)
      · exact .inl ready
  | unlock node =>
      by_cases same : node = names
      · exact .inr (by rw [same])
      · simp only [TrackedTree.apply, TrackedTree.unlock, adjust_node,
          if_neg (Ne.symm same)] at ready
        exact .inl ready
  | warn path ftype => exact .inl ready

variable {events : List Event}

/-- What no event changes is the same after all of them. -/
theorem foldl_apply_eq {β : Type} {f : TrackedTree → β}
    (same : ∀ event ∈ events, ∀ t, f (t.apply event) = f t) :
    f (events.foldl TrackedTree.apply t) = f t := by
  induction events generalizing t with
  | nil => rfl
  | cons event events ih =>
      obtain ⟨first, rest⟩ := List.forall_mem_cons.1 same
      rw [List.foldl_cons, ih rest, first]

theorem unlock_of_ready
    (ready : ((TrackedTree.replay info events).node names).any (·.ready) = true) :
    .unlock names ∈ events := by
  induction events using List.reverseRecOn with
  | nil =>
      simp only [TrackedTree.replay, List.foldl_nil, TrackedTree.new] at ready
      split at ready <;> simp at ready
  | append_singleton events event ih =>
      rw [TrackedTree.replay, List.foldl_append] at ready
      rcases ready_apply ready with earlier | rfl
      · exact List.mem_append_left _ (ih earlier)
      · simp

end Replay

/-! ## All steps -/

/-- What a log has to be like for the readers. -/
structure Sealed (info : M) (events : List Event) : Prop where
  /-- What comes after an `unlock` leaves the children of the node and their totals alone. -/
  closed : events.Pairwise fun event later =>
    ∀ names, event = .unlock names → later.alters names = false
  children : ∀ names n, (TrackedTree.replay info events).node names = some n →
    n.children = addedTo events names
  present : ∀ names, ∀ child ∈ addedTo events names,
    ((TrackedTree.replay info events).node child).isSome
  once : ∀ names, (addedTo events names).Nodup

theorem dropLast_of_mem_addedTo {events : List Event} {names child : List Bytes}
    (added : child ∈ addedTo events names) : child.dropLast = names := by
  obtain ⟨event, -, below⟩ := List.mem_filterMap.1 added
  cases event with
  | addChild child' info =>
      obtain ⟨parent, same⟩ := Option.ite_none_right_eq_some.1 below
      cases same
      exact parent
  | _ => cases below

section Readers

variable {info : M} {events before later : List Event} {g g' : Gate}

/-- The node was unlocked in this part of the log. -/
structure Opened (info : M) (events before : List Event) (names : List Bytes) : Prop where
  unlocked : .unlock names ∈ before
  present : ((TrackedTree.replay info events).node names).isSome

/-- A call that is past its wait. -/
def IterCall.Ok (info : M) (events before : List Event) (call : IterCall) : Prop :=
  ∀ visited, call.visited = some visited →
    Opened info events before call.node ∧ visited <+: addedTo events call.node

/-- The scan has gone through the first part of the log. -/
structure GateInv (info : M) (events before : List Event) (g : Gate) : Prop where
  log : events = before ++ g.todo
  tree : g.tree = .replay info before
  calls : ∀ calls ∈ g.threads, ∀ call ∈ calls, call.Ok info events before
  returned : ∀ call ∈ g.returned, call.2 = addedTo events call.1
  seen : ∀ sight ∈ g.seen, sight.2.isSome ∧
    sight.2 = ((TrackedTree.replay info events).node sight.1).map (·.total)

theorem GateInv.start (readers : ℕ) : GateInv info events [] (.start info events readers) where
  log := rfl
  tree := rfl
  calls calls among call inner := by
    rw [List.eq_of_mem_replicate among] at inner
    simp at inner
  returned := by simp [Gate.start]
  seen := by simp [Gate.start]

theorem Sealed.later_alters (log : Sealed info events) (split : events = before ++ later)
    {names : List Bytes} (unlocked : .unlock names ∈ before) :
    ∀ event ∈ later, event.alters names = false := by
  intro event due
  have closed := log.closed
  rw [split] at closed
  exact (List.pairwise_append.1 closed).2.2 _ unlocked event due names rfl

/-- The children of a node that was unlocked are its last ones. -/
theorem Sealed.children_eq (log : Sealed info events) (split : events = before ++ later)
    {names : List Bytes} (unlocked : .unlock names ∈ before) :
    ((TrackedTree.replay info events).node names).map (·.children) =
      ((TrackedTree.replay info before).node names).map (·.children) := by
  have quiet := log.later_alters split unlocked
  rw [split, TrackedTree.replay, List.foldl_append]
  exact foldl_apply_eq (f := fun t => (t.node names).map (·.children))
    fun event due _ => children_apply (quiet event due)

/-- So are the totals of its children. -/
theorem Sealed.total_eq (log : Sealed info events) (split : events = before ++ later)
    {child : List Bytes} (unlocked : .unlock child.dropLast ∈ before) :
    ((TrackedTree.replay info events).node child).map (·.total) =
      ((TrackedTree.replay info before).node child).map (·.total) := by
  have quiet := log.later_alters split unlocked
  rw [split, TrackedTree.replay, List.foldl_append]
  exact foldl_apply_eq (f := fun t => (t.node child).map (·.total))
    fun event due _ => total_apply (quiet event due)

/-- A reader finds the children of a node that was unlocked complete. -/
theorem GateInv.children (log : Sealed info events) (inv : GateInv info events before g)
    {names : List Bytes} (opened : Opened info events before names) :
    ∃ n, g.tree.node names = some n ∧ n.children = addedTo events names := by
  obtain ⟨last, found⟩ := Option.isSome_iff_exists.1 opened.present
  have same := log.children_eq inv.log opened.unlocked
  rw [found, ← inv.tree] at same
  obtain ⟨n, here, children⟩ := Option.map_eq_some_iff.1 same.symm
  exact ⟨n, here, children.trans (log.children names last found)⟩

theorem GateInv.total (log : Sealed info events) (inv : GateInv info events before g)
    {names child : List Bytes} (opened : Opened info events before names)
    (added : child ∈ addedTo events names) :
    ((g.tree.node child).map (·.total)).isSome ∧ (g.tree.node child).map (·.total) =
      ((TrackedTree.replay info events).node child).map (·.total) := by
  have unlocked := opened.unlocked
  rw [← dropLast_of_mem_addedTo added] at unlocked
  have same := log.total_eq inv.log unlocked
  rw [← inv.tree] at same
  refine ⟨?_, same.symm⟩
  rw [← same, Option.isSome_map]
  exact log.present names child added

theorem IterCall.Ok.mono {call : IterCall} (ok : call.Ok info events before) (more : List Event) :
    call.Ok info events (before ++ more) := by
  intro visited past
  obtain ⟨⟨unlocked, present⟩, first⟩ := ok visited past
  exact ⟨⟨List.mem_append_left _ unlocked, present⟩, first⟩

/-- The calls of the other readers stay as they are. -/
theorem GateInv.put (inv : GateInv info events before g) {calls : List IterCall}
    (own : ∀ call ∈ calls, call.Ok info events before) (thread : ℕ) :
    ∀ calls' ∈ (g.put thread calls).threads, ∀ call ∈ calls', call.Ok info events before :=
  forall_mem_set inv.calls own thread

/-- A node that is ready was unlocked, and is there to stay. -/
theorem GateInv.opened (log : Sealed info events) (inv : GateInv info events before g)
    {names : List Bytes} (ready : g.ready names = true) : Opened info events before names := by
  rw [Gate.ready, inv.tree] at ready
  have unlocked := unlock_of_ready ready
  refine ⟨unlocked, ?_⟩
  rw [← Option.isSome_map (f := (·.children)), log.children_eq inv.log unlocked, Option.isSome_map]
  cases found : (TrackedTree.replay info before).node names with
  | none => simp [found] at ready
  | some n => rfl

/-- The next child continues what was visited. -/
theorem visited_append_prefix {visited children : List (List Bytes)} {child : List Bytes}
    (first : visited <+: children) (next : children[visited.length]? = some child) :
    visited ++ [child] <+: children := by
  obtain ⟨rest, rfl⟩ := first
  rw [List.getElem?_append_right le_rfl, Nat.sub_self] at next
  cases rest with
  | nil => cases next
  | cons other rest =>
      cases next
      exact ⟨rest, by simp⟩

/-- **What a step keeps.** -/
theorem GateInv.step (log : Sealed info events) (inv : GateInv info events before g)
    (moved : GateMove g g') : ∃ before', GateInv info events before' g' := by
  cases moved with
  | @scan event todo due =>
      refine ⟨before ++ [event], ?_, ?_, ?_, inv.returned, inv.seen⟩
      · rw [inv.log, due, List.append_assoc, List.singleton_append]
      · rw [TrackedTree.replay, List.foldl_append, ← TrackedTree.replay, ← inv.tree]
        rfl
      · exact fun calls among call inner => (inv.calls calls among call inner).mono [event]
  | @call thread calls node here =>
      have own := inv.calls calls (List.mem_of_getElem? here)
      have waits : IterCall.Ok info events before { node } := fun visited past => by cases past
      exact ⟨before, inv.log, inv.tree, inv.put (List.forall_mem_cons.2 ⟨waits, own⟩) thread,
        inv.returned, inv.seen⟩
  | @pass thread node calls here ready =>
      have own := List.forall_mem_cons.1 (inv.calls _ (List.mem_of_getElem? here))
      have past : IterCall.Ok info events before ⟨node, some []⟩ := by
        rintro visited ⟨⟩
        exact ⟨inv.opened log ready, List.nil_prefix⟩
      exact ⟨before, inv.log, inv.tree, inv.put (List.forall_mem_cons.2 ⟨past, own.2⟩) thread,
        inv.returned, inv.seen⟩
  | @visit thread node child visited calls here next =>
      have own := List.forall_mem_cons.1 (inv.calls _ (List.mem_of_getElem? here))
      obtain ⟨opened, first⟩ := own.1 visited rfl
      obtain ⟨n, found, complete⟩ := inv.children log opened
      simp only [Gate.childAt, found, Option.bind_some, complete] at next
      have past : IterCall.Ok info events before ⟨node, some (visited ++ [child])⟩ := by
        rintro visited' ⟨⟩
        exact ⟨opened, visited_append_prefix first next⟩
      refine ⟨before, inv.log, inv.tree, inv.put (List.forall_mem_cons.2 ⟨past, own.2⟩) thread,
        inv.returned, List.forall_mem_append.2 ⟨inv.seen, List.forall_mem_singleton.2 ?_⟩⟩
      exact inv.total log opened (List.mem_of_getElem? next)
  | @leave thread node visited calls here over_ =>
      have own := List.forall_mem_cons.1 (inv.calls _ (List.mem_of_getElem? here))
      obtain ⟨opened, first⟩ := own.1 visited rfl
      obtain ⟨n, found, complete⟩ := inv.children log opened
      simp only [Gate.childAt, found, Option.bind_some, complete,
        List.getElem?_eq_none_iff] at over_
      refine ⟨before, inv.log, inv.tree, inv.put own.2 thread,
        List.forall_mem_append.2 ⟨inv.returned, List.forall_mem_singleton.2 ?_⟩, inv.seen⟩
      exact first.eq_of_length_le over_

/-- **The readers of a log that closes each node find it complete.** -/
theorem Sealed.gateOk (log : Sealed info events) {readers : ℕ}
    (reachable : Reachable gateStep (.start info events readers) g) : GateOk info events g := by
  obtain ⟨before, inv⟩ : ∃ before, GateInv info events before g := by
    refine reachable.invariant (P := fun g => ∃ before, GateInv info events before g)
      ⟨[], .start readers⟩ ?_
    rintro g action g' ⟨before, inv⟩ stepped
    exact inv.step log (gateStep_move stepped)
  refine ⟨?_, inv.returned, log.once, inv.seen⟩
  intro calls among call inner visited past
  obtain ⟨opened, first⟩ := inv.calls calls among call inner visited past
  exact ⟨first, inv.children log opened⟩

end Readers

/-! ## The log of a scan -/

section Scan

variable {read : List Bytes → List M} {order : Sorting} {root : Loc} {info : M}
  {node names : List Bytes} {event : Event} {f : Frontier (List Bytes)}

/-- An entry is unlocked when it is a regular file. -/
theorem unlock_mem_entryEvents (unlocks : .unlock names ∈ entryEvents root node info) :
    info.ftype = .regular ∧ names = node ++ [info.name] := by
  cases type : info.ftype <;> simp_all [entryEvents]

/-- What the events of an entry alter. -/
theorem alters_entryEvents (among : event ∈ entryEvents root node info)
    (alters : event.alters names = true) :
    Kept info = true ∧ (names = node ∨ names = node ++ [info.name]) := by
  cases type : info.ftype with
  | directory =>
      rw [entryEvents, type, List.mem_singleton] at among
      subst among
      simp only [Event.alters, List.dropLast_concat, Bool.or_eq_true, decide_eq_true_eq] at alters
      exact ⟨by simp [Kept, type], alters.symm.imp Eq.symm Eq.symm⟩
  | regular =>
      simp only [entryEvents, type, List.mem_cons, List.not_mem_nil, or_false] at among
      refine ⟨by simp [Kept, type], ?_⟩
      rcases among with rfl | rfl | rfl
      · simp only [Event.alters, List.dropLast_concat, Bool.or_eq_true, decide_eq_true_eq] at alters
        exact alters.symm.imp Eq.symm Eq.symm
      · simp only [Event.alters, List.dropLast_concat, decide_eq_true_eq] at alters
        exact .inl alters.symm
      · cases alters
  | _ =>
      rw [entryEvents, type, List.mem_singleton] at among
      subst among
      cases alters

/-- A round unlocks its directory and the regular files in it. -/
theorem unlock_mem_roundEvents (unlocks : .unlock names ∈ roundEvents read order root node) :
    names = node ∨ ∃ info ∈ read node, info.ftype = .regular ∧ names = node ++ [info.name] := by
  rcases List.mem_append.1 unlocks with entry | last
  · obtain ⟨info, listed, among⟩ := List.mem_flatMap.1 entry
    obtain ⟨regular, same⟩ := unlock_mem_entryEvents among
    exact .inr ⟨info, (order.perm _).mem_iff.1 listed, regular, same⟩
  · exact .inl (Event.unlock.inj (List.mem_singleton.1 last))

/-- A round alters its directory and adds the entries in it. -/
theorem alters_roundEvents (among : event ∈ roundEvents read order root node)
    (alters : event.alters names = true) :
    names = node ∨ ∃ info ∈ read node, names = node ++ [info.name] := by
  rcases List.mem_append.1 among with entry | last
  · obtain ⟨info, listed, among⟩ := List.mem_flatMap.1 entry
    obtain ⟨-, same⟩ := alters_entryEvents among alters
    exact same.imp_right fun same => ⟨info, (order.perm _).mem_iff.1 listed, same⟩
  · rw [List.mem_singleton.1 last] at alters
    cases alters

/-- Within a round nothing is altered after it was unlocked. -/
theorem closed_roundEvents (distinct : DistinctNames read) :
    (roundEvents read order root node).Pairwise fun event later =>
      ∀ names, event = .unlock names → later.alters names = false := by
  refine List.pairwise_append.2 ⟨List.pairwise_flatMap.2 ⟨?_, ?_⟩, List.pairwise_singleton _ _, ?_⟩
  · intro info _
    cases type : info.ftype <;> simp [entryEvents, type]
  · refine (List.pairwise_map.1 (distinct.sorted order node)).imp ?_
    rintro info info' apart _ among event among' names rfl
    obtain ⟨-, rfl⟩ := unlock_mem_entryEvents among
    rw [← Bool.not_eq_true]
    intro alters
    rcases (alters_entryEvents among' alters).2 with same | same
    · simp at same
    · exact apart (append_singleton_inj same).2
  · intro _ _ event last _ _
    rw [List.mem_singleton.1 last]
    rfl

/-- A directory that is visited is no regular file of another one. -/
theorem ne_regular_of_visited (distinct : DistinctNames read)
    (once : Once (subdirs read order) [] f)
    (visited : node ++ [info.name] ∈ f.done) (listed : info ∈ read node) :
    info.ftype ≠ .regular := by
  intro regular
  rcases once.parent _ (List.mem_append_left _ visited) with empty | ⟨parent, -, below⟩
  · simp at empty
  · obtain ⟨other, listed', directory, same⟩ := mem_subdirs.1 below
    obtain ⟨rfl, names⟩ := append_singleton_inj same
    obtain rfl := List.inj_on_of_nodup_map (distinct node) listed listed' names
    rw [regular] at directory
    cases directory

/-- **A scan never alters what it has unlocked.** -/
theorem closed_image (distinct : DistinctNames read)
    (reachable : Reachable (explore (subdirs read order)) (.start []) f) :
    (image read order root f).events.Pairwise fun event later =>
      ∀ names, event = .unlock names → later.alters names = false := by
  have tree : Treelike (subdirs read order) [] := subdirs_treelike distinct
  have once := nodup_explored tree reachable
  have ordered := ordered_explored tree reachable
  have nodup : f.done.Nodup := (List.nodup_append.1 once.nodup).1
  refine List.pairwise_flatMap.2 ⟨fun node _ => closed_roundEvents distinct, ?_⟩
  refine (ordered.and nodup).imp_of_mem ?_
  rintro first second visited visited' ⟨order', apart⟩ _ among event among' names rfl
  rw [← Bool.not_eq_true]
  intro alters
  rcases unlock_mem_roundEvents among with rfl | ⟨info, listed, regular, rfl⟩
  · rcases alters_roundEvents among' alters with same | ⟨info, listed, rfl⟩
    · exact apart same
    · -- Then the first directory would be one of the second.
      rcases once.parent _ (List.mem_append_left _ visited) with empty | ⟨parent, -, below⟩
      · simp at empty
      · obtain ⟨_, -, -, same⟩ := mem_subdirs.1 below
        rw [← (append_singleton_inj same).1] at below
        exact order' below
  · rcases alters_roundEvents among' alters with same | ⟨info', -, same⟩
    · rw [← same] at visited'
      exact ne_regular_of_visited distinct once visited' listed regular
    · exact apart (append_singleton_inj same).1

theorem addedTo_append (first second : List Event) (names : List Bytes) :
    addedTo (first ++ second) names = addedTo first names ++ addedTo second names :=
  List.filterMap_append

theorem addedTo_entryEvents : addedTo (entryEvents root node info) names =
    if Kept info = true ∧ names = node then [node ++ [info.name]] else [] := by
  by_cases same : node = names
  · cases type : info.ftype <;> simp [entryEvents, type, addedTo, Event.childOf, Kept, same]
  · cases type : info.ftype <;>
      simp [entryEvents, type, addedTo, Event.childOf, Kept, same, Ne.symm same]

theorem addedTo_roundEvents : addedTo (roundEvents read order root node) names =
    if names = node then (keptEntries read order node).map fun entry => node ++ [entry.name]
    else [] := by
  have entries : ∀ infos : List M, addedTo (infos.flatMap (entryEvents root node)) names =
      if names = node then (infos.filter Kept).map fun entry => node ++ [entry.name] else [] := by
    intro infos
    induction infos with
    | nil => simp [addedTo]
    | cons info infos ih =>
        rw [List.flatMap_cons, addedTo_append, ih, addedTo_entryEvents]
        by_cases kept : Kept info = true <;> by_cases same : names = node <;> simp [kept, same]
  have last : addedTo [.unlock node] names = [] := rfl
  rw [roundEvents, addedTo_append, entries, last, List.append_nil]
  rfl

/-- The children that a scan adds to a node are the entries of its directory, if it was visited. -/
theorem addedTo_image (once : f.done.Nodup) : addedTo (image read order root f).events names =
    if names ∈ f.done then (keptEntries read order names).map fun entry => names ++ [entry.name]
    else [] := by
  obtain ⟨todo, done⟩ := f
  rw [image]
  simp only at once ⊢
  induction done with
  | nil => rfl
  | cons node done ih =>
      obtain ⟨new, once⟩ := List.nodup_cons.1 once
      rw [List.flatMap_cons, addedTo_append, addedTo_roundEvents, ih once]
      by_cases same : names = node
      · subst same
        simp [new]
      · simp [same]

/-- **The log of a scan closes each node when it is complete.** -/
theorem sealed_image (folder : info.ftype ≠ .regular) (distinct : DistinctNames read)
    (reachable : Reachable (explore (subdirs read order)) (.start []) f) :
    Sealed info (image read order root f).events := by
  have tree : TreeSoFar read order root info f := reachable_tree folder distinct reachable
  have once : f.done.Nodup := (List.nodup_append.1 tree.once.nodup).1
  refine ⟨closed_image distinct reachable, ?_, ?_, ?_⟩
  · intro names n found
    obtain ⟨entry, -, rfl⟩ := tree.exists_entry found
    rw [addedTo_image once, nodeFor]
    split
    · rfl
    · exact freshNode_children entry
  · intro names child added
    rw [addedTo_image once] at added
    split at added
    · rename_i visited
      obtain ⟨entry, among, rfl⟩ := List.mem_map.1 added
      rw [tree.nodes, Option.isSome_map]
      exact entryAt_concat_isSome.2 ⟨visited, entry, among, rfl⟩
    · cases added
  · intro names
    rw [addedTo_image once]
    split
    · exact nodup_children (distinct.sorted order names) Kept
    · exact List.nodup_nil

end Scan

/-! ## The gate -/

section Gate

variable {disk : Disk} {links : ℕ} {root : Loc}

/-- **Every call of `iter_children` that gets past its wait finds what the scan ever adds.** -/
theorem readiness_gate (finite : FiniteTree disk links root)
    (directory : (disk.status links root).1 = .directory) (order : Sorting) :
    (∃ w, Reachable (scanStep disk links order root) scanStart w ∧ w.stack = []) ∧
      ∀ w, Reachable (scanStep disk links order root) scanStart w → w.stack = [] →
        ∀ readers g, Reachable gateStep (.start (readM disk links root) w.events readers) g →
          GateOk (readM disk links root) w.events g := by
  rw [scanStep_eq_scanWith]
  constructor
  · exact scan_terminates_iff.2 (finite.grounded directory order)
  · intro w scanned _ readers g reachable
    obtain ⟨f, explored, rfl⟩ := reachable_image.1 scanned
    exact (sealed_image (readM_ne_regular directory) distinct_readEntries explored).gateOk reachable

/-- A reader calls before the scan has begun, waits, and goes down into the directory `d` while the
scan is still at work there. -/
def sampleActions : List Action :=
  .call 0 [] :: List.replicate 6 .scan ++ [.pass 0, .visit 0, .call 0 [[100]]] ++
    List.replicate 4 .scan ++ [.pass 0, .visit 0, .leave 0, .visit 0, .leave 0]

theorem readiness_gate_plainDisk :
    FiniteTree plainDisk 40 [[114]] ∧ (plainDisk.status 40 [[114]]).1 = .directory ∧
      ∃ w g, Reachable (scanStep plainDisk 40 ⟨id, fun _ => .refl _⟩ [[114]]) scanStart w ∧
        w.stack = [] ∧
        Reachable gateStep (.start (readM plainDisk 40 [[114]]) w.events 1) g ∧
        g.returned = [([[100]], [[[100], [102]]]), ([], [[[100]], [[103]]])] ∧
        GateOk (readM plainDisk 40 [[114]]) w.events g := by
  have finite : FiniteTree plainDisk 40 [[114]] := finiteTree_of_finite (finite_ofTable _ _)
  have directory : (plainDisk.status 40 [[114]]).1 = .directory := by decide +kernel
  have each := (readiness_gate finite directory ⟨id, fun _ => .refl _⟩).2
  obtain ⟨w, scanned⟩ := Option.isSome_iff_exists.1 (show (run (scanStep plainDisk 40
    ⟨id, fun _ => .refl _⟩ [[114]]) scanStart [(), ()]).isSome by decide +kernel)
  have facts : ∀ w ∈ run (scanStep plainDisk 40 ⟨id, fun _ => .refl _⟩ [[114]]) scanStart [(), ()],
      w.stack = [] ∧ ((run gateStep (.start (readM plainDisk 40 [[114]]) w.events 1)
        sampleActions).any fun g =>
          g.returned = [([[100]], [[[100], [102]]]), ([], [[[100]], [[103]]])]) = true := by
    decide +kernel
  obtain ⟨over_, finished⟩ := facts w scanned
  obtain ⟨g, reaches, finished⟩ := (Option.any_eq_true _ _).1 finished
  have returned := of_decide_eq_true finished
  exact ⟨finite, directory, w, g, ⟨_, scanned⟩, over_, ⟨_, reaches⟩, returned,
    each w ⟨_, scanned⟩ over_ 1 g ⟨_, reaches⟩⟩

end Gate

end Enuwatch.Scan

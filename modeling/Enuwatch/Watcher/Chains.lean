import Enuwatch.Watcher
import Mathlib.Data.List.Forall2
import Mathlib.Data.List.Induction

/-!
# Chains of renames

`event_callback` remembers under each inode the path of its latest rename. The next rename of the
inode makes a `moved` from that path to its own, and is remembered in turn.

So the moves of a batch are the pairs of a rename and the latest earlier rename of its inode, in
the order of the batch. Those of one inode form a chain from its first path to its last
(`moves_chained`).
-/

set_option autoImplicit false

namespace Enuwatch.Watcher

open Enuwatch.Lib

/-- A rename that the callback looks at. -/
def Event.renames (e : Event) : Bool := e.flags.itemRenamed && !e.flags.resync

/-- The renames of an inode. -/
def renamesOf (inode : ℕ) (events : List Event) : List Event :=
  events.filter fun e => e.renames && e.inode == inode

/-- The source and the target of the move that an event of the batch completes: the latest earlier
rename of its inode, and the event itself. -/
def pairAt (batch : List Event) (i : ℕ) : Option (Event × Event) :=
  match batch[i]? with
  | none => none
  | some e =>
      if e.renames then (renamesOf e.inode (batch.take i)).getLast?.map fun source => (source, e)
      else none

/-- The moves of a batch, in its order. -/
def renamePairs (batch : List Event) : List (Event × Event) :=
  (List.range batch.length).filterMap (pairAt batch)

/-- The calls that report a move. -/
def movesIn (calls : List FsEvent) : List FsEvent := calls.filter (·.kind = .moved)

/-- The string up to its first NUL. -/
def cString (s : Bytes) : Bytes := s.takeWhile (· ≠ 0)

/-- The call reports a move between the paths of two events. Its strings are those that the callback
has made of the paths; up to the first NUL they are the paths. -/
structure Moves (call : FsEvent) (source target : Event) : Prop where
  kind : call.kind = .moved
  path : source.path.buffer = some call.path
  dest : target.path.buffer = some call.dest
  pathText : source.path.utf8 = some (cString call.path)
  destText : target.path.utf8 = some (cString call.dest)

/-! ## The strings -/

/-- The string that is made of a path is the path and some NULs. -/
theorem CFPath.cString_buffer {path : CFPath} {buffer : Bytes}
    (decoded : path.buffer = some buffer) : path.utf8 = some (cString buffer) := by
  obtain ⟨bytes, found, rfl⟩ := Option.map_eq_some_iff.1 decoded
  have clean : ∀ byte ∈ bytes, decide (byte ≠ 0) = true := by
    intro byte among
    simpa using ne_of_mem_of_not_mem among (path.noNul bytes found)
  have shape : overwrite (zeros path.maxPathSize) 0 (bytes ++ [0]) =
      bytes ++ (0 :: (zeros path.maxPathSize).drop (bytes ++ [0]).length) := by
    simp [overwrite]
  rw [found, cString, shape, List.takeWhile_append_of_pos clean]
  simp

theorem buffer_isSome {path : CFPath} : path.buffer.isSome = path.utf8.isSome :=
  Option.isSome_map

/-! ## One event -/

section Event

variable {b : Batch} {call : FsEvent} {path : Bytes}

theorem movesIn_push (still : call.kind ≠ .moved) :
    movesIn (b.push call).events = movesIn b.events := by
  simp [movesIn, Batch.push, still]

theorem movesIn_pushIf (still : call.kind ≠ .moved) (flag : Bool) :
    movesIn (Batch.pushIf flag call b).events = movesIn b.events := by
  unfold Batch.pushIf
  split
  · exact movesIn_push still
  · rfl

theorem chained_pushIf (flag : Bool) : (Batch.pushIf flag call b).chained = b.chained := by
  unfold Batch.pushIf
  split <;> rfl

theorem movesIn_rename (inode : ℕ) :
    movesIn (b.rename inode path).events = movesIn b.events ++
      ((b.chained.lookup inode).map fun src => ⟨.moved, src, path⟩).toList := by
  unfold Batch.rename
  cases b.chained.lookup inode with
  | none => simp
  | some src => simp [movesIn, Batch.push]

theorem lookup_rename (inode other : ℕ) :
    (b.rename inode path).chained.lookup other =
      if other = inode then some path else b.chained.lookup other := by
  by_cases same : other = inode
  · subst same
    unfold Batch.rename
    split <;> simp
  · rw [if_neg same]
    unfold Batch.rename
    split
    · rw [AList.lookup_insert_ne same, AList.lookup_erase_ne same]
    · rw [AList.lookup_insert_ne same]

end Event

/-- What one event does to the moves and to what is remembered. -/
theorem handleEvent_spec {b b' : Batch} {e : Event} (handled : handleEvent b e = some b') :
    ∃ path, e.path.buffer = some path ∧
      (movesIn b'.events = movesIn b.events ++
        if e.renames then ((b.chained.lookup e.inode).map fun src => ⟨.moved, src, path⟩).toList
        else []) ∧
      ∀ other, b'.chained.lookup other =
        if e.renames = true ∧ other = e.inode then some path else b.chained.lookup other := by
  obtain ⟨path, decoded, rfl⟩ := Option.map_eq_some_iff.1 handled
  refine ⟨path, decoded, ?_⟩
  have skipped : e.flags.resync = true → e.renames = false := fun resync => by
    simp [Event.renames, resync]
  split
  case isTrue lost =>
    rw [skipped (Flags.resync_iff.2 (.inl lost))]
    exact ⟨by simp [movesIn_push], by simp [Batch.push]⟩
  case isFalse kept =>
    split
    case isTrue dropped =>
      rw [skipped (Flags.resync_iff.2 (.inr dropped))]
      exact ⟨by simp [movesIn_push], by simp [Batch.push]⟩
    case isFalse listed =>
      have single : e.flags.resync = false := Bool.eq_false_iff.2 fun resync =>
        (Flags.resync_iff.1 resync).elim kept listed
      have renames : e.renames = e.flags.itemRenamed := by simp [Event.renames, single]
      rw [movesIn_pushIf (by simp), movesIn_pushIf (by simp), chained_pushIf, chained_pushIf,
        renames]
      split
      case isTrue renamed =>
        rw [movesIn_rename, movesIn_pushIf (by simp), chained_pushIf]
        refine ⟨rfl, fun other => ?_⟩
        rw [lookup_rename, chained_pushIf]
        simp only [renamed, true_and]
      case isFalse still =>
        rw [movesIn_pushIf (by simp), chained_pushIf]
        simp [still]

/-! ## The moves of a batch -/

theorem renamesOf_concat (inode : ℕ) (batch : List Event) (e : Event) :
    renamesOf inode (batch ++ [e]) =
      renamesOf inode batch ++ if e.renames = true ∧ inode = e.inode then [e] else [] := by
  rw [renamesOf, List.filter_append, List.filter_singleton]
  by_cases same : e.renames = true ∧ inode = e.inode
  · simp [renamesOf, same.1, same.2]
  · have other : (e.renames && e.inode == inode) = false := by
      rw [Bool.eq_false_iff]
      intro both
      simp only [Bool.and_eq_true, beq_iff_eq] at both
      exact same ⟨both.1, both.2.symm⟩
    simp [renamesOf, same, other]

/-- The last event completes a move with the latest rename of its inode. -/
theorem renamePairs_concat (batch : List Event) (e : Event) :
    renamePairs (batch ++ [e]) = renamePairs batch ++
      if e.renames then ((renamesOf e.inode batch).getLast?.map fun source => (source, e)).toList
      else [] := by
  have earlier : (List.range batch.length).filterMap (pairAt (batch ++ [e])) =
      renamePairs batch := by
    refine List.filterMap_congr fun i among => ?_
    have inside : i < batch.length := List.mem_range.1 among
    rw [pairAt, pairAt, List.getElem?_append_left inside,
      List.take_append_of_le_length inside.le]
  have last : pairAt (batch ++ [e]) batch.length =
      if e.renames then (renamesOf e.inode batch).getLast?.map fun source => (source, e)
      else none := by
    rw [pairAt, List.getElem?_concat_length, List.take_left' rfl]
  rw [renamePairs, List.length_append, List.length_singleton, List.range_succ,
    List.filterMap_append, earlier]
  refine congrArg _ ?_
  have single : [batch.length].filterMap (pairAt (batch ++ [e])) =
      (pairAt (batch ++ [e]) batch.length).toList := by
    rw [List.filterMap_cons, List.filterMap_nil]
    cases pairAt (batch ++ [e]) batch.length <;> rfl
  rw [single, last]
  split <;> rfl

/-- What the loop has built and remembers after some events. -/
structure Chained (batch : List Event) (b : Batch) : Prop where
  moves : List.Forall₂ (fun call pair => Moves call pair.1 pair.2) (movesIn b.events)
    (renamePairs batch)
  remembered : ∀ inode, b.chained.lookup inode =
    (renamesOf inode batch).getLast?.bind (·.path.buffer)

/-- Every event but a fatal one keeps the chains. -/
theorem Chained.step {batch : List Event} {b b' : Batch} {e : Event} (chained : Chained batch b)
    (handled : handleEvent b e = some b') (decodes : ∀ e ∈ batch, e.path.buffer.isSome) :
    Chained (batch ++ [e]) b' := by
  obtain ⟨path, decoded, moves, remembered⟩ := handleEvent_spec handled
  constructor
  · rw [moves, renamePairs_concat]
    refine List.rel_append chained.moves ?_
    split
    case isFalse => exact .nil
    case isTrue =>
      rw [chained.remembered]
      cases latest : (renamesOf e.inode batch).getLast? with
      | none => exact .nil
      | some source =>
          have among : source ∈ batch := (List.mem_filter.1 (List.mem_of_getLast? latest)).1
          obtain ⟨src, before⟩ := Option.isSome_iff_exists.1 (decodes source among)
          rw [Option.bind_some, before]
          exact .cons ⟨rfl, before, decoded, CFPath.cString_buffer before,
            CFPath.cString_buffer decoded⟩ .nil
  · intro inode
    rw [remembered, renamesOf_concat]
    split
    case isTrue own =>
      rw [List.getLast?_append]
      exact decoded.symm
    case isFalse => rw [List.append_nil, chained.remembered]

/-- What the loop has built after a batch, and that it gets there only when every path can be
decoded. -/
theorem handled_chains {batch : List Event} {b : Batch}
    (handled : batch.foldlM handleEvent {} = some b) :
    Chained batch b ∧ ∀ e ∈ batch, e.path.buffer.isSome := by
  induction batch using List.reverseRecOn generalizing b with
  | nil =>
      obtain rfl : {} = b := by simpa using handled
      exact ⟨⟨.nil, by simp [renamesOf]⟩, by simp⟩
  | append_singleton batch e ih =>
      rw [List.foldlM_append] at handled
      obtain ⟨before, earlier, last⟩ := Option.bind_eq_some_iff.1 handled
      have moved : handleEvent before e = some b := by simpa using last
      obtain ⟨chained, decodes⟩ := ih earlier
      obtain ⟨path, decoded, -, -⟩ := handleEvent_spec moved
      refine ⟨chained.step moved decodes, List.forall_mem_append.2 ⟨decodes, ?_⟩⟩
      simp [decoded]

/-! ## The moves of an inode -/

/-- Neighbours in a list that grows at its end. -/
theorem zip_tail_concat {α : Type} (chain : List α) (next : α) :
    (chain ++ [next]).zip (chain ++ [next]).tail =
      chain.zip chain.tail ++ (chain.getLast?.map fun last => (last, next)).toList := by
  induction chain with
  | nil => rfl
  | cons first chain ih =>
      cases chain with
      | nil => rfl
      | cons second chain =>
          have rest : ((second :: chain) ++ [next]).zip (chain ++ [next]) = _ := ih
          simp only [List.cons_append, List.tail_cons, List.zip_cons_cons] at rest ⊢
          rw [rest]
          rfl

/-- The moves of an inode lead from one of its renames to the next. -/
theorem pairs_of_inode (inode : ℕ) (batch : List Event) :
    (renamePairs batch).filter (fun pair => pair.2.inode == inode) =
      (renamesOf inode batch).zip (renamesOf inode batch).tail := by
  induction batch using List.reverseRecOn with
  | nil => rfl
  | append_singleton batch e ih =>
      rw [renamePairs_concat, List.filter_append, ih, renamesOf_concat]
      by_cases own : e.renames = true ∧ inode = e.inode
      · obtain ⟨renames, rfl⟩ := own
        rw [if_pos renames, if_pos ⟨renames, rfl⟩, zip_tail_concat]
        cases (renamesOf e.inode batch).getLast? <;> simp
      · rw [if_neg own, List.append_nil]
        by_cases renames : e.renames = true
        · have other : e.inode ≠ inode := fun same => own ⟨renames, same.symm⟩
          rw [if_pos renames]
          cases (renamesOf e.inode batch).getLast? <;> simp [other]
        · simp [renames]

/-- **The moves of a batch are chained.** The callback makes its calls when all paths can be
decoded. Its moves are then the renames that have an earlier one of their inode, in the order of the
batch, each from the latest such rename; and those of one inode lead from its first path to its
last. -/
theorem moves_chained (batch : List Event) :
    ((eventCallback batch).isSome ↔ ∀ e ∈ batch, e.path.utf8.isSome) ∧
      (∀ calls, eventCallback batch = some calls →
        List.Forall₂ (fun call pair => Moves call pair.1 pair.2) (movesIn calls)
          (renamePairs batch)) ∧
      ∀ inode, (renamePairs batch).filter (fun pair => pair.2.inode == inode) =
        (renamesOf inode batch).zip (renamesOf inode batch).tail := by
  refine ⟨⟨?_, ?_⟩, ?_, fun inode => pairs_of_inode inode batch⟩
  · intro called e among
    rw [eventCallback, Option.isSome_map] at called
    obtain ⟨b, handled⟩ := Option.isSome_iff_exists.1 called
    rw [← buffer_isSome]
    exact (handled_chains handled).2 e among
  · intro decodes
    obtain ⟨b, handled⟩ := exists_calls {} decodes
    rw [eventCallback, handled]
    rfl
  · intro calls called
    obtain ⟨b, handled, rfl⟩ := Option.map_eq_some_iff.1 called
    exact (handled_chains handled).1.moves

end Enuwatch.Watcher

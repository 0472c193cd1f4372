import Enuwatch.Lib.Buffer
import Mathlib.Data.List.AList

/-!
# The file system watcher

`event_callback` receives a batch of events from the kernel, turns them into calls of the
handler and makes the calls at the end. Renames are reported in pairs: the first rename of an
inode is remembered under the inode, and the next one makes a `moved`.

The path of an event is decoded into a buffer that is large enough for any string of its
length, and the whole buffer becomes the path of the calls. So no call ever names the path of
an event exactly, and the changes in a batch are all reported exactly when there are none or
when some event of the batch asks for a complete resync or reports the root as lost
(`reported_iff`).
-/

set_option autoImplicit false

namespace Enuwatch.Watcher

open Enuwatch.Lib

/-- `FsEventKind`; its `meta` is called `metadata` here. -/
inductive FsEventKind where
  | created
  | deleted
  | modify
  | metadata
  | moved
  | sync
  | unrecoverable
deriving DecidableEq, Repr

/-- A call of the handler. -/
structure FsEvent where
  kind : FsEventKind
  path : Bytes := []
  dest : Bytes := []
deriving DecidableEq, Repr

/-- The flags of an event that `event_callback` looks at, and `ItemModified`. -/
structure Flags where
  rootChanged : Bool := false
  mount : Bool := false
  unmount : Bool := false
  userDropped : Bool := false
  mustScanSubDirs : Bool := false
  itemCreated : Bool := false
  itemRemoved : Bool := false
  itemRenamed : Bool := false
  itemModified : Bool := false
  itemChangeOwner : Bool := false
  itemInodeMetaMod : Bool := false
deriving DecidableEq, Repr

/-- A path as the kernel gives it: a string of `units` UTF-16 code units and its UTF-8 form, if
it has one. A code unit takes at most three bytes, and a path contains no NUL. -/
structure CFPath where
  units : ℕ
  utf8 : Option Bytes
  fits : ∀ bytes ∈ utf8, bytes.length ≤ 3 * units
  noNul : ∀ bytes ∈ utf8, 0 ∉ bytes

structure Event where
  path : CFPath
  inode : ℕ
  flags : Flags

/-- `CFStringGetMaximumSizeForEncoding(len, kCFStringEncodingUTF8) + 1`. -/
def CFPath.maxPathSize (path : CFPath) : ℕ := 3 * path.units + 1

/-- `std::string path(max_path_size, '\0')` after `CFStringGetCString` has filled it in. -/
def CFPath.buffer (path : CFPath) : Option Bytes :=
  path.utf8.map fun bytes => overwrite (zeros path.maxPathSize) 0 (bytes ++ [0])

/-- The variables of `event_callback`. -/
structure Batch where
  events : List FsEvent := []
  chained : AList fun _ : ℕ => Bytes := ∅

namespace Batch

def push (b : Batch) (e : FsEvent) : Batch := { b with events := b.events ++ [e] }

/-- `if (flag) events.push_back(e)`. -/
def pushIf (flag : Bool) (e : FsEvent) (b : Batch) : Batch := if flag then b.push e else b

/-- `ItemRenamed`: the target of a move whose source is known, or perhaps the source of one. -/
def rename (b : Batch) (inode : ℕ) (path : Bytes) : Batch :=
  match b.chained.lookup inode with
  | some src =>
      { b.push ⟨.moved, src, path⟩ with chained := (b.chained.erase inode).insert inode path }
  | none => { b with chained := b.chained.insert inode path }

end Batch

/-- The body of the loop over the events; `none` is a fatal error. -/
def handleEvent (b : Batch) (e : Event) : Option Batch :=
  e.path.buffer.map fun path =>
    if e.flags.rootChanged || e.flags.mount || e.flags.unmount then
      b.push { kind := .unrecoverable }
    else if e.flags.userDropped || e.flags.mustScanSubDirs then b.push { kind := .sync }
    else
      let b := b.pushIf e.flags.itemCreated { kind := .created, path }
      let b := if e.flags.itemRenamed then b.rename e.inode path else b
      let b := b.pushIf (e.flags.itemChangeOwner || e.flags.itemInodeMetaMod)
        { kind := .metadata, path }
      b.pushIf e.flags.itemRemoved { kind := .deleted, path }

/-- `event_callback`: the calls of the handler, in order. -/
def eventCallback (batch : List Event) : Option (List FsEvent) :=
  (batch.foldlM handleEvent {}).map (·.events)

/-! ## What is to be reported -/

/-- The event reports a change. -/
def Flags.changed (flags : Flags) : Bool :=
  flags.itemCreated || flags.itemRemoved || flags.itemRenamed || flags.itemModified ||
    flags.itemChangeOwner || flags.itemInodeMetaMod

/-- The event makes everything else in its batch irrelevant. -/
def Flags.resync (flags : Flags) : Bool :=
  flags.rootChanged || flags.mount || flags.unmount || flags.userDropped || flags.mustScanSubDirs

theorem Flags.resync_iff {flags : Flags} : flags.resync = true ↔
    (flags.rootChanged || flags.mount || flags.unmount) = true ∨
      (flags.userDropped || flags.mustScanSubDirs) = true := by
  simp only [Flags.resync, Bool.or_eq_true, or_assoc]

/-- The call asks for a complete resync or reports the root as lost. -/
def FsEvent.Total (call : FsEvent) : Prop := call.kind = .sync ∨ call.kind = .unrecoverable

/-- The call is about this path; only a move has a destination. -/
def FsEvent.Names (call : FsEvent) (path : Bytes) : Prop :=
  ¬ call.Total ∧ (call.path = path ∨ call.kind = .moved ∧ call.dest = path)

/-- Every change in the batch leads to a call. -/
def Reported (batch : List Event) (calls : List FsEvent) : Prop :=
  ∀ e ∈ batch, e.flags.changed = true → ∀ path ∈ e.path.utf8,
    ∃ call ∈ calls, call.Total ∨ call.Names path

/-! ## The calls -/

/-- A call with a NUL in every path it has. -/
def FsEvent.Padded (call : FsEvent) : Prop :=
  call.Total ∨ 0 ∈ call.path ∧ (call.kind = .moved → 0 ∈ call.dest)

theorem FsEvent.Padded.not_names {call : FsEvent} (padded : call.Padded) {path : Bytes}
    (noNul : 0 ∉ path) : ¬ call.Names path := by
  rintro ⟨partly, rfl | ⟨moved, rfl⟩⟩
  · exact noNul (padded.resolve_left partly).1
  · exact noNul ((padded.resolve_left partly).2 moved)

/-- The buffer is longer than the path, so it has a NUL. -/
theorem CFPath.nul_mem_buffer {path : CFPath} {buffer : Bytes}
    (decoded : path.buffer = some buffer) : 0 ∈ buffer := by
  obtain ⟨bytes, -, rfl⟩ := Option.map_eq_some_iff.1 decoded
  simp [overwrite]

/-- What the loop keeps: every path it has built has a NUL. -/
structure Batch.Padded (b : Batch) : Prop where
  events : ∀ call ∈ b.events, call.Padded
  chained : ∀ inode src, b.chained.lookup inode = some src → 0 ∈ src

namespace Batch.Padded

variable {b : Batch} {path : Bytes}

theorem push (padded : b.Padded) {call : FsEvent} (own : call.Padded) : (b.push call).Padded :=
  ⟨List.forall_mem_append.2 ⟨padded.events, by simpa using own⟩, padded.chained⟩

theorem pushIf (padded : b.Padded) {call : FsEvent} (own : call.Padded) (flag : Bool) :
    (Batch.pushIf flag call b).Padded := by
  unfold Batch.pushIf
  split
  · exact padded.push own
  · exact padded

theorem rename (padded : b.Padded) (inode : ℕ) (nul : 0 ∈ path) :
    (b.rename inode path).Padded := by
  have remembered : ∀ other src, (b.chained.insert inode path).lookup other = some src →
      0 ∈ src := by
    intro other src found
    by_cases same : other = inode
    · subst same
      rw [AList.lookup_insert] at found
      exact Option.some.inj found ▸ nul
    · rw [AList.lookup_insert_ne same] at found
      exact padded.chained other src found
  unfold Batch.rename
  split
  · rename_i src found
    have moved : FsEvent.Padded ⟨.moved, src, path⟩ :=
      .inr ⟨padded.chained inode src found, fun _ => nul⟩
    refine ⟨(padded.push moved).events, fun other src' here => remembered other src' ?_⟩
    by_cases same : other = inode
    · subst same
      rwa [AList.lookup_insert] at here ⊢
    · rw [AList.lookup_insert_ne same, AList.lookup_erase_ne same] at here
      rwa [AList.lookup_insert_ne same]
  · exact ⟨padded.events, remembered⟩

end Batch.Padded

theorem handleEvent_padded {b b' : Batch} {e : Event} (padded : b.Padded)
    (handled : handleEvent b e = some b') : b'.Padded := by
  obtain ⟨path, decoded, rfl⟩ := Option.map_eq_some_iff.1 handled
  have nul := CFPath.nul_mem_buffer decoded
  have named : ∀ kind, kind ≠ .moved → FsEvent.Padded { kind, path } := fun kind still =>
    .inr ⟨nul, fun moved => absurd moved still⟩
  split
  · exact padded.push (.inl (.inr rfl))
  · split
    · exact padded.push (.inl (.inl rfl))
    · have created := padded.pushIf (named .created (by decide)) e.flags.itemCreated
      have renamed : (if e.flags.itemRenamed then
          (Batch.pushIf e.flags.itemCreated { kind := .created, path } b).rename e.inode path
          else Batch.pushIf e.flags.itemCreated { kind := .created, path } b).Padded := by
        split
        · exact created.rename e.inode nul
        · exact created
      exact (renamed.pushIf (named .metadata (by decide)) _).pushIf (named .deleted (by decide)) _

/-! ## Calls for everything at once -/

/-- A call for everything at once is among the calls so far. -/
def Batch.HasTotal (b : Batch) : Prop := ∃ call ∈ b.events, call.Total

section Total

variable {b : Batch} {call : FsEvent}

theorem hasTotal_push : (b.push call).HasTotal ↔ b.HasTotal ∨ call.Total := by
  simp [Batch.HasTotal, Batch.push, or_and_right, exists_or]

theorem hasTotal_pushIf (partly : ¬ call.Total) (flag : Bool) :
    (Batch.pushIf flag call b).HasTotal ↔ b.HasTotal := by
  unfold Batch.pushIf
  split
  · rw [hasTotal_push, or_iff_left partly]
  · exact Iff.rfl

theorem hasTotal_rename (inode : ℕ) (path : Bytes) :
    (b.rename inode path).HasTotal ↔ b.HasTotal := by
  unfold Batch.rename
  split
  · rename_i src _
    have partly : ¬ FsEvent.Total ⟨.moved, src, path⟩ := by simp [FsEvent.Total]
    exact hasTotal_push.trans (or_iff_left partly)
  · exact Iff.rfl

end Total

theorem handleEvent_hasTotal {b b' : Batch} {e : Event} (handled : handleEvent b e = some b') :
    b'.HasTotal ↔ b.HasTotal ∨ e.flags.resync = true := by
  obtain ⟨path, -, rfl⟩ := Option.map_eq_some_iff.1 handled
  split
  · rename_i lost
    have resync : e.flags.resync = true := Flags.resync_iff.2 (.inl lost)
    simp [hasTotal_push, FsEvent.Total, resync]
  · rename_i kept
    split
    · rename_i dropped
      have resync : e.flags.resync = true := Flags.resync_iff.2 (.inr dropped)
      simp [hasTotal_push, FsEvent.Total, resync]
    · rename_i listed
      have single : ¬ e.flags.resync = true := fun resync =>
        (Flags.resync_iff.1 resync).elim kept listed
      rw [or_iff_left single, hasTotal_pushIf (by simp [FsEvent.Total]),
        hasTotal_pushIf (by simp [FsEvent.Total])]
      split
      · rw [hasTotal_rename, hasTotal_pushIf (by simp [FsEvent.Total])]
      · exact hasTotal_pushIf (by simp [FsEvent.Total]) _

/-! ## Every batch -/

/-- What the loop has built after a batch. -/
theorem handled_batch {batch : List Event} {b b' : Batch} (padded : b.Padded)
    (handled : batch.foldlM handleEvent b = some b') :
    b'.Padded ∧ (b'.HasTotal ↔ b.HasTotal ∨ ∃ e ∈ batch, e.flags.resync = true) := by
  induction batch generalizing b with
  | nil =>
      obtain rfl : b = b' := by simpa using handled
      exact ⟨padded, by simp⟩
  | cons e batch ih =>
      rw [List.foldlM_cons] at handled
      obtain ⟨b₁, first, rest⟩ := Option.bind_eq_some_iff.1 handled
      obtain ⟨padded', total⟩ := ih (handleEvent_padded padded first) rest
      refine ⟨padded', ?_⟩
      rw [total, handleEvent_hasTotal first, List.exists_mem_cons_iff, or_assoc]

/-- When every path can be decoded, the callback makes its calls. -/
theorem exists_calls {batch : List Event} (b : Batch)
    (decodes : ∀ e ∈ batch, e.path.utf8.isSome) : ∃ b', batch.foldlM handleEvent b = some b' := by
  induction batch generalizing b with
  | nil => exact ⟨b, rfl⟩
  | cons e batch ih =>
      obtain ⟨bytes, decoded⟩ := Option.isSome_iff_exists.1 (decodes e (by simp))
      have first : ∃ b₁, handleEvent b e = some b₁ := by
        simp [handleEvent, CFPath.buffer, decoded]
      obtain ⟨b₁, handled⟩ := first
      obtain ⟨b', rest⟩ := ih b₁ fun e' later => decodes e' (by simp [later])
      exact ⟨b', by rw [List.foldlM_cons, handled]; exact rest⟩

/-- **The changes in a batch are all reported exactly when there are none, or when some event of
the batch asks for a complete resync or reports the root as lost.** -/
theorem reported_iff {batch : List Event} (decodes : ∀ e ∈ batch, e.path.utf8.isSome) :
    ∃ calls, eventCallback batch = some calls ∧
      (Reported batch calls ↔ (∀ e ∈ batch, e.flags.changed = false) ∨
        ∃ e ∈ batch, e.flags.resync = true) := by
  obtain ⟨b, handled⟩ := exists_calls {} decodes
  obtain ⟨padded, total⟩ := handled_batch ⟨by simp, by simp⟩ handled
  refine ⟨b.events, by simp [eventCallback, handled], ?_⟩
  have start : ¬ Batch.HasTotal {} := by simp [Batch.HasTotal]
  rw [or_iff_right start] at total
  constructor
  · intro reported
    by_contra neither
    rw [not_or] at neither
    obtain ⟨quiet, single⟩ := neither
    push Not at quiet
    obtain ⟨e, member, changed⟩ := quiet
    obtain ⟨path, decoded⟩ := Option.isSome_iff_exists.1 (decodes e member)
    obtain ⟨call, made, whole | named⟩ :=
      reported e member (by simpa using changed) path (by simp [decoded])
    · exact single (total.1 ⟨call, made, whole⟩)
    · exact (padded.events call made).not_names (e.path.noNul path (by simp [decoded])) named
  · rintro (quiet | resync) e member changed path decoded
    · simp [quiet e member] at changed
    · obtain ⟨call, made, whole⟩ := total.2 resync
      exact ⟨call, made, .inl whole⟩

/-- A path of one letter. -/
def samplePath (letter : UInt8) (noNul : 0 ≠ letter) : CFPath where
  units := 1
  utf8 := some [letter]
  fits := by simp
  noNul := by simpa using noNul

/-- The file `a` was made and the file `b` modified, with the given flags besides. -/
def sampleBatch (flags : Flags) : List Event :=
  [⟨samplePath 97 (by decide), 1, { flags with itemCreated := true }⟩,
    ⟨samplePath 98 (by decide), 2, { flags with itemModified := true }⟩]

theorem reported_iff_sample :
    ∃ calls, eventCallback (sampleBatch { mustScanSubDirs := true }) = some calls ∧
      Reported (sampleBatch { mustScanSubDirs := true }) calls := by
  have decodes : ∀ e ∈ sampleBatch { mustScanSubDirs := true }, e.path.utf8.isSome := by decide
  obtain ⟨calls, called, reported⟩ := reported_iff decodes
  exact ⟨calls, called, reported.2 (.inr (by decide))⟩

/-- The call for `a` names a longer path, and there is none for `b`. -/
theorem change_lost :
    eventCallback (sampleBatch {}) = some [{ kind := .created, path := [97, 0, 0, 0] }] ∧
      ¬ Reported (sampleBatch {}) [{ kind := .created, path := [97, 0, 0, 0] }] := by
  refine ⟨by decide, fun reported => ?_⟩
  obtain ⟨call, made, found⟩ := reported ⟨samplePath 97 (by decide), 1, { itemCreated := true }⟩
    (by simp [sampleBatch]) rfl [97] rfl
  obtain rfl := List.mem_singleton.1 made
  simp [FsEvent.Total, FsEvent.Names] at found

end Enuwatch.Watcher

import Enuwatch.Lib.Buffer
import Enuwatch.Lib.Transition

/-!
# How a failed spawn is reported

Parent and child of `_process_spawn` share the pipe `result`. A child that fails writes the
length of its message and then the message, in up to four writes, and exits; a child that
executes its program closes the pipe without a byte. The parent reads the length, then, with
one `read`, the message, waits for the child and reports what it read. With `fork` the two run
side by side.

The second read takes what is in the pipe at that moment and leaves zeros for the rest. So the
parent reports the message of the child exactly when the whole message is in the pipe by then;
a child that executes its program is never reported (`report_iff`).
-/

set_option autoImplicit false

namespace Enuwatch.SpawnReport

open Enuwatch.Lib

/-- The kernel's pipes: `PIPE_BUF` and how much a pipe holds. -/
structure Kernel where
  pipeBuf : ℕ
  capacity : ℕ
  /-- POSIX has at least 512. -/
  posix : 8 ≤ pipeBuf
  holds : pipeBuf ≤ capacity

/-- The blocks in which writes enter a pipe: a write of at most `PIPE_BUF` bytes at once, a
longer one in any portions. -/
structure Kernel.Takes (k : Kernel) (writes blocks : List Bytes) : Prop where
  portions : ∃ groups, blocks = groups.flatten ∧
    List.Forall₂ (fun bytes group =>
      List.flatten group = bytes ∧ (bytes.length ≤ k.pipeBuf → group = [bytes])) writes groups
  fit : ∀ block ∈ blocks, block.length ≤ k.capacity

/-- Why a child fails: the text it gives, and that of `strerror`. -/
structure Failure where
  err : Bytes
  errn : Bytes
  textual : 0 ∉ err ++ errn
  /-- The length of the message is a `size_t`. -/
  fits : err.length + 2 + errn.length < 2 ^ 64

namespace Failure

/-- `": "`. -/
def colon : Bytes := [58, 32]

/-- The message of the child. -/
def message (f : Failure) : Bytes :=
  if f.errn = [] then f.err else f.err ++ colon ++ f.errn

/-- The writes of `fail`. -/
def writes (f : Failure) : List Bytes :=
  [leBytes 8 f.message.length, f.err] ++ if f.errn = [] then [] else [colon, f.errn]

end Failure

/-- Where the parent is: before its first read, before its second one, in `waitpid` with the
message it read, or done. -/
inductive Parent where
  | length
  | message (msgLen : ℕ)
  | waiting (msg : Bytes)
  | reported (msg : Bytes)
  | spawned
deriving DecidableEq, Repr

/-- Both processes and the pipe. -/
structure State where
  /-- The blocks the child still puts in the pipe. Without any left it exits, or executes its
  program, and either closes its end of the pipe: `none`. -/
  child : Option (List Bytes)
  pipe : Bytes
  parent : Parent
deriving DecidableEq, Repr

inductive Who where
  | child
  | parent
deriving DecidableEq, Repr

/-- `read` of `count` bytes from the pipe: it waits while the pipe is empty and open. -/
def readPipe (s : State) (count : ℕ) : Option Bytes :=
  if count = 0 then some []
  else if s.pipe = [] ∧ s.child.isSome then none
  else some (s.pipe.take count)

/-- One action of one of the processes. The variable `msg_len` holds `stack` before the first
read. -/
def step (k : Kernel) (stack : Bytes) (s : State) : Who → Option State
  | .child =>
      match s.child with
      | some (block :: rest) =>
          if s.pipe.length + block.length ≤ k.capacity then
            some { s with child := some rest, pipe := s.pipe ++ block }
          else none
      | some [] => some { s with child := none }
      | none => none
  | .parent =>
      match s.parent with
      | .length =>
          (readPipe s 8).map fun got =>
            if 0 < got.length then
              { s with pipe := s.pipe.drop 8, parent := .message (leNat (overwrite stack 0 got)) }
            else { s with parent := .spawned }
      | .message msgLen =>
          (readPipe s msgLen).map fun got =>
            { s with
              pipe := s.pipe.drop msgLen
              parent := .waiting (overwrite (zeros msgLen) 0 got) }
      | .waiting msg => if s.child = none then some { s with parent := .reported msg } else none
      | _ => none

/-- The processes after the fork. -/
def start (blocks : List Bytes) : State := ⟨some blocks, [], .length⟩

section

variable (k : Kernel) (stack : Bytes)

/-- Neither process goes on. -/
def Stuck (s : State) : Prop := ∀ who, step k stack s who = none

/-- The parent reports the message, and no other one, whatever happens from here. -/
structure Reports (s : State) (msg : Bytes) : Prop where
  only : ∀ s' msg', Reachable (step k stack) s s' → s'.parent = .reported msg' → msg' = msg
  done : ∀ s', Reachable (step k stack) s s' → Stuck k stack s' → s'.parent = .reported msg

end

/-! ## Messages -/

section Messages

variable (f : Failure)

theorem nul_not_mem_message : 0 ∉ f.message := by
  have textual := f.textual
  unfold Failure.message
  split
  · simp_all
  · simp only [List.mem_append, not_or] at textual ⊢
    exact ⟨⟨textual.1, by decide⟩, textual.2⟩

theorem length_message_lt : f.message.length < 256 ^ 8 := by
  have fits := f.fits
  have bound : f.message.length ≤ f.err.length + 2 + f.errn.length := by
    unfold Failure.message
    split
    · omega
    · simp [Failure.colon]
      omega
  omega

/-- What follows the length is the message. -/
theorem writes_eq : ∃ later, f.writes = leBytes 8 f.message.length :: later ∧
    later.flatten = f.message := by
  by_cases plain : f.errn = []
  · exact ⟨[f.err], by simp [Failure.writes, plain], by simp [Failure.message, plain]⟩
  · exact ⟨[f.err, Failure.colon, f.errn], by simp [Failure.writes, plain],
      by simp [Failure.message, plain]⟩

/-- The length enters the pipe at once, and then the message. -/
theorem takes_writes {k : Kernel} {blocks : List Bytes} (takes : k.Takes f.writes blocks) :
    ∃ later, blocks = leBytes 8 f.message.length :: later ∧ later.flatten = f.message := by
  obtain ⟨later, shape, message⟩ := writes_eq f
  obtain ⟨groups, rfl, matching⟩ := takes.portions
  rw [shape] at matching
  cases matching with
  | cons first others =>
      rename_i group rest
      obtain rfl := first.2 (by simpa using k.posix)
      refine ⟨rest.flatten, rfl, ?_⟩
      rw [← message]
      clear message shape takes
      induction others with
      | nil => rfl
      | cons same _ ih => simp [same.1, ih]

end Messages

/-! ## Steps -/

section Steps

variable {k : Kernel} {stack : Bytes} {s s' : State}

/-- What one action does. -/
inductive Act (k : Kernel) (stack : Bytes) : State → State → Prop where
  | put {block : Bytes} {rest : List Bytes} {pipe : Bytes} {parent : Parent}
      (room : pipe.length + block.length ≤ k.capacity) :
      Act k stack ⟨some (block :: rest), pipe, parent⟩ ⟨some rest, pipe ++ block, parent⟩
  | close {pipe : Bytes} {parent : Parent} :
      Act k stack ⟨some [], pipe, parent⟩ ⟨none, pipe, parent⟩
  | readLength {child : Option (List Bytes)} {pipe : Bytes} (some : pipe ≠ []) :
      Act k stack ⟨child, pipe, .length⟩
        ⟨child, pipe.drop 8, .message (leNat (overwrite stack 0 (pipe.take 8)))⟩
  | spawned : Act k stack ⟨none, [], .length⟩ ⟨none, [], .spawned⟩
  | readMessage {child : Option (List Bytes)} {pipe : Bytes} {msgLen : ℕ} :
      Act k stack ⟨child, pipe, .message msgLen⟩
        ⟨child, pipe.drop msgLen, .waiting (overwrite (zeros msgLen) 0 (pipe.take msgLen))⟩
  | report {pipe msg : Bytes} :
      Act k stack ⟨none, pipe, .waiting msg⟩ ⟨none, pipe, .reported msg⟩

theorem readPipe_eq {count : ℕ} {got : Bytes} (read : readPipe s count = some got) :
    got = s.pipe.take count := by
  unfold readPipe at read
  split at read
  · rename_i nothing
    simp_all
  · split at read
    · cases read
    · exact (Option.some.inj read).symm

/-- A read of the length that finds nothing finds the pipe closed. -/
theorem closed_of_readPipe (read : readPipe s 8 = some []) : s.pipe = [] ∧ s.child = none := by
  have empty : s.pipe = [] := by simpa using (readPipe_eq read).symm
  refine ⟨empty, ?_⟩
  simp only [readPipe, empty, true_and] at read
  cases child : s.child with
  | none => rfl
  | some rest => simp [child] at read

theorem step_act {who : Who} (stepped : step k stack s who = some s') : Act k stack s s' := by
  obtain ⟨child, pipe, parent⟩ := s
  cases who with
  | child =>
      simp only [step] at stepped
      split at stepped
      · split at stepped
        · rename_i room
          cases stepped
          exact .put room
        · cases stepped
      · cases stepped
        exact .close
      · cases stepped
  | parent =>
      simp only [step] at stepped
      split at stepped
      · obtain ⟨got, read, rfl⟩ := Option.map_eq_some_iff.1 stepped
        split
        · rename_i found
          obtain rfl := readPipe_eq read
          refine .readLength ?_
          rintro rfl
          simp at found
        · rename_i nothing
          obtain rfl : got = [] := by simpa using nothing
          obtain ⟨rfl, rfl⟩ := closed_of_readPipe read
          exact .spawned
      · obtain ⟨got, read, rfl⟩ := Option.map_eq_some_iff.1 stepped
        obtain rfl := readPipe_eq read
        exact .readMessage
      · split at stepped
        · rename_i closed
          cases stepped
          obtain rfl := closed
          exact .report
        · cases stepped
      · cases stepped

end Steps

/-- What is left of a run: the actions of the child, and those of the parent. -/
def State.left (s : State) : ℕ :=
  (match s.child with
    | some rest => rest.length + 1
    | none => 0) +
  match s.parent with
    | .length => 3
    | .message _ => 2
    | .waiting _ => 1
    | _ => 0

/-- Every run ends. -/
theorem exists_stuck (k : Kernel) (stack : Bytes) (s : State) :
    ∃ s', Reachable (step k stack) s s' ∧ Stuck k stack s' := by
  refine exists_final State.left ?_ s
  intro s who s' stepped
  cases step_act stepped <;> simp [State.left]

/-! ## The report of a child that fails -/

section Failing

variable {k : Kernel} {stack : Bytes} {f : Failure} {s s' : State}

/-- The states of a spawn whose child fails: up to the second read, what is in the pipe and what
is still to come make up the report. -/
inductive Reporting (f : Failure) : State → Prop where
  | unsent {later : List Bytes} (message : later.flatten = f.message) :
      Reporting f ⟨some (leBytes 8 f.message.length :: later), [], .length⟩
  | sent {child : Option (List Bytes)} {pipe : Bytes}
      (message : pipe ++ (child.getD []).flatten = f.message) :
      Reporting f ⟨child, leBytes 8 f.message.length ++ pipe, .length⟩
  | announced {child : Option (List Bytes)} {pipe : Bytes}
      (message : pipe ++ (child.getD []).flatten = f.message) :
      Reporting f ⟨child, pipe, .message f.message.length⟩
  | waiting {child : Option (List Bytes)} {pipe msg : Bytes} :
      Reporting f ⟨child, pipe, .waiting msg⟩
  | reported {child : Option (List Bytes)} {pipe msg : Bytes} :
      Reporting f ⟨child, pipe, .reported msg⟩

/-- The length that the first read finds. -/
theorem leNat_report (room : stack.length = 8) (pipe : Bytes) :
    leNat (overwrite stack 0 ((leBytes 8 f.message.length ++ pipe).take 8)) = f.message.length := by
  have whole : (leBytes 8 f.message.length ++ pipe).take 8 = leBytes 8 f.message.length :=
    List.take_left' (length_leBytes ..)
  have all : overwrite stack 0 (leBytes 8 f.message.length) = leBytes 8 f.message.length := by
    simp [overwrite, room]
  rw [whole, all, leNat_leBytes (length_message_lt f)]

theorem Reporting.act (room : stack.length = 8) (reporting : Reporting f s)
    (act : Act k stack s s') : Reporting f s' := by
  cases reporting with
  | unsent message =>
      cases act with
      | put _ =>
          rename_i later _
          have sent : Reporting f ⟨some later, leBytes 8 f.message.length ++ [], .length⟩ :=
            .sent message
          simpa using sent
      | readLength some => exact absurd rfl some
  | sent message =>
      rename_i child pipe
      cases act with
      | put _ =>
          rw [List.append_assoc]
          exact .sent (by simpa using message)
      | close => exact .sent message
      | readLength _ =>
          rw [leNat_report room, List.drop_left' (length_leBytes ..)]
          exact .announced message
  | announced message =>
      cases act with
      | put _ => exact .announced (by simpa using message)
      | close => exact .announced message
      | readMessage => exact .waiting
  | waiting => cases act <;> constructor
  | reported => cases act <;> constructor

theorem reachable_reporting (room : stack.length = 8) {blocks : List Bytes}
    (takes : k.Takes f.writes blocks) (reachable : Reachable (step k stack) (start blocks) s) :
    Reporting f s := by
  refine reachable.invariant ?_ fun _ _ _ before stepped => before.act room (step_act stepped)
  obtain ⟨later, rfl, message⟩ := takes_writes f takes
  exact .unsent message

/-- What the child has left to put in the pipe never outgrows it. -/
theorem reachable_fit {blocks : List Bytes} (takes : k.Takes f.writes blocks)
    (reachable : Reachable (step k stack) (start blocks) s) :
    ∀ rest, s.child = some rest → ∀ block ∈ rest, block.length ≤ k.capacity := by
  refine reachable.invariant (P := fun s => ∀ rest, s.child = some rest →
    ∀ block ∈ rest, block.length ≤ k.capacity) ?_ ?_
  · rintro rest ⟨⟩
    exact takes.fit
  · intro s who s' fit stepped rest left
    cases step_act stepped with
    | put _ =>
        cases left
        exact fun block among => fit _ rfl block (List.mem_cons_of_mem _ among)
    | close => cases left
    | _ => exact fit rest left

/-- A child that has something to put into an empty pipe, or nothing at all, goes on. -/
theorem child_moves {rest : List Bytes} {parent : Parent}
    (fit : ∀ block ∈ rest, block.length ≤ k.capacity) :
    step k stack ⟨some rest, [], parent⟩ .child ≠ none := by
  cases rest with
  | nil => simp [step]
  | cons block rest =>
      have room : block.length ≤ k.capacity := fit block List.mem_cons_self
      simp [step, room]

/-- Nothing holds the parent up before it has made its second read. -/
theorem Reporting.not_stuck (reporting : Reporting f s)
    (fit : ∀ rest, s.child = some rest → ∀ block ∈ rest, block.length ≤ k.capacity)
    (stuck : Stuck k stack s) : ∃ msg, s.parent = .waiting msg ∨ s.parent = .reported msg := by
  cases reporting with
  | unsent _ => exact absurd (stuck .child) (child_moves (fit _ rfl))
  | sent _ => exact absurd (stuck .parent) (by simp [step, readPipe, leBytes])
  | announced _ =>
      rename_i child pipe _
      have read : readPipe ⟨child, pipe, .message f.message.length⟩ f.message.length = none := by
        simpa [step] using stuck .parent
      simp only [readPipe] at read
      split at read
      · cases read
      · split at read
        · rename_i waits
          obtain ⟨rfl, writer⟩ := waits
          obtain ⟨rest, rfl⟩ := Option.isSome_iff_exists.1 writer
          exact absurd (stuck .child) (child_moves (fit rest rfl))
        · cases read
  | waiting => exact ⟨_, .inl rfl⟩
  | reported => exact ⟨_, .inr rfl⟩

/-! ### After the second read -/

/-- The parent has read `msg` and reports it as soon as the child is gone. -/
def Holds (msg : Bytes) (s : State) : Prop := s.parent = .waiting msg ∨ s.parent = .reported msg

theorem Holds.act {msg : Bytes} (holds : Holds msg s) (act : Act k stack s s') : Holds msg s' := by
  cases act with
  | report =>
      obtain reading | reading := holds
      · cases reading
        exact .inr rfl
      · cases reading
  | put _ => exact holds
  | close => exact holds
  | _ => simp [Holds] at holds

theorem Holds.reachable {msg : Bytes} (holds : Holds msg s)
    (reachable : Reachable (step k stack) s s') : Holds msg s' :=
  reachable.invariant holds fun _ _ _ before stepped => before.act (step_act stepped)

/-- The child has nothing more to say, and the pipe is empty. -/
def Silent (s : State) : Prop := s.pipe = [] ∧ (s.child.getD []).flatten = []

theorem Silent.act {msg : Bytes} (silent : Silent s) (holds : Holds msg s)
    (act : Act k stack s s') : Silent s' := by
  obtain ⟨empty, quiet⟩ := silent
  cases act with
  | put _ =>
      simp only [Option.getD_some, List.flatten_cons, List.append_eq_nil_iff] at quiet empty
      exact ⟨by simp [empty, quiet.1], quiet.2⟩
  | close => exact ⟨empty, rfl⟩
  | report => exact ⟨empty, rfl⟩
  | _ => simp [Holds] at holds

theorem Silent.reachable {msg : Bytes} (silent : Silent s) (holds : Holds msg s)
    (reachable : Reachable (step k stack) s s') : Silent s' := by
  have both : Silent s' ∧ Holds msg s' := by
    refine reachable.invariant (P := fun s => Silent s ∧ Holds msg s) ⟨silent, holds⟩ ?_
    intro s who s' before stepped
    have act := step_act stepped
    exact ⟨before.1.act before.2 act, before.2.act act⟩
  exact both.1

/-- After a silent child the parent gets to its report. -/
theorem Silent.reported {msg : Bytes} (silent : Silent s) (holds : Holds msg s)
    (stuck : Stuck k stack s) : s.parent = .reported msg := by
  obtain ⟨child, pipe, parent⟩ := s
  obtain ⟨rfl, quiet⟩ : pipe = [] ∧ (child.getD []).flatten = [] := silent
  cases child with
  | none =>
      obtain rfl | rfl : parent = .waiting msg ∨ parent = .reported msg := holds
      · exact absurd (stuck .parent) (by simp [step])
      · rfl
  | some rest =>
      refine absurd (stuck .child) (child_moves ?_)
      intro block among
      have none : block = [] := List.flatten_eq_nil_iff.1 quiet block among
      simp [none]

/-- What a second read that finds `pipe` makes of a message. -/
theorem overwrite_eq_message {pipe rest : Bytes} (message : pipe ++ rest = f.message) :
    overwrite (zeros f.message.length) 0 (pipe.take f.message.length) = f.message ↔
      f.message.length ≤ pipe.length := by
  have short : pipe.length ≤ f.message.length := by simp [← message]
  rw [List.take_of_length_le short]
  have filled : overwrite (zeros f.message.length) 0 pipe =
      pipe ++ zeros (f.message.length - pipe.length) := by
    simpa using overwrite_filled [] pipe f.message.length
  rw [filled]
  constructor
  · intro same
    by_contra missing
    have nul : (0 : UInt8) ∈ f.message := by
      rw [← same]
      exact List.mem_append_right _ (List.mem_replicate.2 ⟨by omega, rfl⟩)
    exact nul_not_mem_message f nul
  · intro whole
    have nothing : rest = [] := by
      have lengths := congrArg List.length message
      simp only [List.length_append] at lengths
      exact List.eq_nil_of_length_eq_zero (by omega)
    have all : pipe = f.message := by simpa [nothing] using message
    have none : f.message.length - pipe.length = 0 := by omega
    rw [none, zeros_zero, List.append_nil, all]

/-- The second read. -/
theorem parent_reads {child : Option (List Bytes)} {pipe : Bytes} {msgLen : ℕ}
    (stepped : step k stack ⟨child, pipe, .message msgLen⟩ .parent = some s') :
    s' = ⟨child, pipe.drop msgLen,
      .waiting (overwrite (zeros msgLen) 0 (pipe.take msgLen))⟩ := by
  simp only [step] at stepped
  obtain ⟨got, read, rfl⟩ := Option.map_eq_some_iff.1 stepped
  rw [readPipe_eq read]

/-- A state after the second read reports what was read, or gets stuck. -/
theorem Holds.eq_of_reports {read msg : Bytes} (holds : Holds read s)
    (reports : Reports k stack s msg) : read = msg := by
  obtain ⟨final, reachable, stuck⟩ := exists_stuck k stack s
  have done := reports.done final reachable stuck
  obtain waits | reported := holds.reachable reachable
  · rw [waits] at done
    cases done
  · rw [reported] at done
    exact Parent.reported.inj done

theorem Silent.reports {msg : Bytes} (silent : Silent s) (holds : Holds msg s) :
    Reports k stack s msg where
  only := by
    intro s' msg' reachable reported
    obtain waits | same := holds.reachable reachable
    · rw [waits] at reported
      cases reported
    · rw [same] at reported
      exact (Parent.reported.inj reported).symm
  done := fun _ reachable stuck =>
    (silent.reachable holds reachable).reported (holds.reachable reachable) stuck

/-- The parent reports the message exactly when the second read finds all of it. -/
theorem Reporting.reports_iff {msgLen : ℕ} (reporting : Reporting f s)
    (reading : s.parent = .message msgLen) (stepped : step k stack s .parent = some s') :
    Reports k stack s' f.message ↔ f.message.length ≤ s.pipe.length := by
  cases reporting with
  | announced message =>
      rename_i child pipe
      obtain rfl := parent_reads stepped
      constructor
      · intro reports
        exact (overwrite_eq_message message).1 (Holds.eq_of_reports (.inl rfl) reports)
      · intro whole
        refine Silent.reports ?_ (.inl (congrArg _ ((overwrite_eq_message message).2 whole)))
        have lengths := congrArg List.length message
        simp only [List.length_append] at lengths whole
        have quiet : (child.getD []).flatten.length = 0 := by omega
        exact ⟨List.drop_eq_nil_of_le (by omega), List.eq_nil_of_length_eq_zero quiet⟩
  | _ => simp at reading

end Failing

/-! ## A child that executes its program -/

section Executing

variable {k : Kernel} {stack : Bytes} {s : State}

/-- Nothing enters the pipe, so the parent takes the child for spawned. -/
theorem reachable_executing (reachable : Reachable (step k stack) (start []) s) :
    s.pipe = [] ∧ (∀ block rest, s.child ≠ some (block :: rest)) ∧
      (s.parent = .length ∨ s.parent = .spawned) := by
  refine reachable.invariant (P := fun s => s.pipe = [] ∧
    (∀ block rest, s.child ≠ some (block :: rest)) ∧
      (s.parent = .length ∨ s.parent = .spawned)) ⟨rfl, by simp [start], .inl rfl⟩ ?_
  rintro s who s' ⟨empty, nothing, outcome⟩ stepped
  cases step_act stepped with
  | put _ => exact absurd rfl (nothing _ _)
  | close => exact ⟨empty, by simp, outcome⟩
  | readLength found => exact absurd empty found
  | spawned => exact ⟨rfl, by simp, .inr rfl⟩
  | readMessage => simp at outcome
  | report => simp at outcome

end Executing

/-- **When a failed spawn is reported as it is.** Whatever the schedule, a parent whose child
fails gets to its second read, and after that reports the child's message, and nothing else, if
and only if the whole message was in the pipe at that read. A child that executes its program is
taken for spawned. -/
theorem report_iff (k : Kernel) (stack : Bytes) (room : stack.length = 8) :
    (∀ (f : Failure) blocks s, k.Takes f.writes blocks → Reachable (step k stack) (start blocks) s →
      s.parent ≠ .spawned ∧
      (Stuck k stack s → ∃ msg, s.parent = .waiting msg ∨ s.parent = .reported msg) ∧
      ∀ msgLen s', s.parent = .message msgLen → step k stack s .parent = some s' →
        (Reports k stack s' f.message ↔ f.message.length ≤ s.pipe.length)) ∧
    ∀ s, Reachable (step k stack) (start []) s →
      (∀ msg, s.parent ≠ .reported msg) ∧ (Stuck k stack s → s.parent = .spawned) := by
  constructor
  · intro f blocks s takes reachable
    have reporting := reachable_reporting room takes reachable
    refine ⟨?_, reporting.not_stuck (reachable_fit takes reachable),
      fun msgLen s' reading stepped => reporting.reports_iff reading stepped⟩
    intro spawned
    cases reporting <;> simp at spawned
  · intro s reachable
    obtain ⟨empty, nothing, outcome⟩ := reachable_executing reachable
    constructor
    · intro msg reported
      simp [reported] at outcome
    · intro stuck
      obtain before | spawned := outcome
      · obtain ⟨child, pipe, parent⟩ := s
        obtain rfl : pipe = [] := empty
        obtain rfl : parent = .length := before
        cases child with
        | none => exact absurd (stuck .parent) (by simp [step, readPipe])
        | some rest =>
            cases rest with
            | nil => exact absurd (stuck .child) (by simp [step])
            | cons block rest => exact absurd rfl (nothing block rest)
      · exact spawned

/-! ### A program that is not there -/

/-- Pipes as Linux and macOS have them. -/
def usualKernel : Kernel := ⟨512, 65536, by decide, by decide⟩

/-- A write that is not long enters the pipe at once. -/
theorem Kernel.takes_short {k : Kernel} {writes : List Bytes}
    (short : ∀ bytes ∈ writes, bytes.length ≤ k.pipeBuf) : k.Takes writes writes where
  portions := by
    refine ⟨writes.map fun bytes => [bytes], ?_, ?_⟩
    · induction writes with
      | nil => rfl
      | cons bytes rest ih =>
          have same := ih fun other among => short other (List.mem_cons_of_mem _ among)
          rw [List.map_cons, List.flatten_cons, ← same, List.singleton_append]
    · rw [List.forall₂_map_right_iff, List.forall₂_same]
      exact fun bytes _ => ⟨by simp, fun _ => rfl⟩
  fit := fun bytes among => (short bytes among).trans k.holds

/-- `execve` of a path that does not exist. -/
def noEntry : Failure where
  err := [101, 120, 101, 99, 118, 101]
  errn := [78, 111, 32, 115, 117, 99, 104, 32, 102, 105, 108, 101, 32, 111, 114, 32,
    100, 105, 114, 101, 99, 116, 111, 114, 121]
  textual := by decide
  fits := by decide

theorem takes_noEntry : usualKernel.Takes noEntry.writes noEntry.writes :=
  Kernel.takes_short (by decide)

/-- The child has made its writes before the parent makes its second read. -/
theorem report_iff_sample :
    ∃ s s', Reachable (step usualKernel (zeros 8)) (start noEntry.writes) s ∧
      step usualKernel (zeros 8) s .parent = some s' ∧
      Reports usualKernel (zeros 8) s' noEntry.message := by
  have reaches : ∀ s ∈ run (step usualKernel (zeros 8)) (start noEntry.writes)
      [.child, .child, .parent, .child, .child],
      s.parent = .message noEntry.message.length ∧ noEntry.message.length ≤ s.pipe.length ∧
        (step usualKernel (zeros 8) s .parent).isSome := by
    decide +kernel
  obtain ⟨s, there⟩ := Option.isSome_iff_exists.1 (show (run (step usualKernel (zeros 8))
    (start noEntry.writes) [.child, .child, .parent, .child, .child]).isSome by decide +kernel)
  obtain ⟨reading, whole, moves⟩ := reaches s there
  obtain ⟨s', stepped⟩ := Option.isSome_iff_exists.1 moves
  have reports := ((report_iff usualKernel (zeros 8) rfl).1 noEntry _ s takes_noEntry
    ⟨_, there⟩).2.2 _ s' reading stepped
  exact ⟨s, s', ⟨_, there⟩, stepped, reports.2 whole⟩

/-- The parent makes its second read when the child has written `execve` only: it reports that,
followed by zeros. -/
theorem report_cut_short : usualKernel.Takes noEntry.writes noEntry.writes ∧
    ∃ s msg, Reachable (step usualKernel (zeros 8)) (start noEntry.writes) s ∧
      s.parent = .reported msg ∧ msg = noEntry.err ++ zeros 27 ∧ msg ≠ noEntry.message := by
  refine ⟨takes_noEntry, ?_⟩
  have reaches : ∀ s ∈ run (step usualKernel (zeros 8)) (start noEntry.writes)
      [.child, .child, .parent, .parent, .child, .child, .child, .parent],
      s.parent = .reported (noEntry.err ++ zeros 27) := by
    decide +kernel
  obtain ⟨s, there⟩ := Option.isSome_iff_exists.1 (show (run (step usualKernel (zeros 8))
    (start noEntry.writes)
      [.child, .child, .parent, .parent, .child, .child, .child, .parent]).isSome by decide +kernel)
  exact ⟨s, _, ⟨_, there⟩, reaches s there, rfl, by decide⟩

end Enuwatch.SpawnReport

import Enuwatch.Lib.Transition
import Enuwatch.SpawnStreams

/-!
# Who holds the ends of the pipes

A parent that has spawned several children holds one end of three pipes for each of them, and a
child is a copy of the parent with the ends for all its elder siblings. All ends that
`_process_spawn` makes are close-on-exec, and the redirection loop takes that flag off only for the
three streams of the child itself.

So, as long as the parent had its standard streams open in the beginning, no process ever holds an
end that is not its own (`ends_apart`): the write end of a child's input and the read ends of its
output and its errors are with the parent, the other ends with the child, and those of the result
pipe with nobody. A child sees the end of its input as soon as the parent closes its one descriptor
for it, and the parent that of an output as soon as the child is gone.

The table of a process records for each end whose pipe it belongs to. Seen by one child, these are
the descriptors of `SpawnStreams` (`openPipes_seenBy`, `subprocess_seenBy`).
-/

set_option autoImplicit false

namespace Enuwatch.SpawnFamily

open Enuwatch.Lib Enuwatch.SpawnStreams

/-- What a descriptor refers to: an end of a pipe that was made for a child, or something older. -/
inductive Ref where
  | inherited
  | rd (child : ℕ) (pipe : Channel)
  | wr (child : ℕ) (pipe : Channel)
deriving DecidableEq, Repr

structure Entry where
  ref : Ref
  cloexec : Bool
deriving DecidableEq, Repr

/-- A copy of a descriptor is not close-on-exec. -/
def Entry.copy (e : Entry) : Entry := { e with cloexec := false }

/-- `Pipe::Pipe`, for a pipe of child `k`. -/
def openPipe (k : ℕ) (channel : Channel) (table : Slots Entry) : Pipe × Slots Entry :=
  let reading := table.alloc ⟨.rd k channel, true⟩
  (⟨table.next, reading.next⟩, reading.alloc ⟨.wr k channel, true⟩)

/-- The pipes of `_process_spawn`. -/
def openPipes (k : ℕ) (table : Slots Entry) : ChildArgs × Slots Entry :=
  let (result, table) := openPipe k .result table
  let (input, table) := openPipe k .input table
  let (out, table) := openPipe k .out table
  let (err, table) := openPipe k .err table
  (⟨result, input, out, err⟩, table)

/-- `subprocess` up to the end of the redirection loop. -/
def subprocess (args : ChildArgs) (table : Slots Entry) : Option (Slots Entry) := do
  let table := table.free args.result.rd
  let table ← table.move Entry.copy args.input.rd 0
  let table ← table.move Entry.copy args.out.wr 1
  table.move Entry.copy args.err.wr 2

/-- `execve` closes what is close-on-exec. -/
def exec (table : Slots Entry) : Slots Entry := ⟨table.cells.map (·.filter (!·.cloexec))⟩

/-- The descriptors that the parent closes when the child is on its way. -/
def closeEnds (args : ChildArgs) (table : Slots Entry) : Slots Entry :=
  ((((table.free args.result.wr).free args.input.rd).free args.out.wr).free args.err.wr).free
    args.result.rd

/-- A parent and its children, of which some have ended. -/
structure Family where
  parent : Slots Entry
  children : List (Option (Slots Entry)) := []

inductive Input where
  /-- A spawn whose child executes its program. -/
  | spawn
  /-- The parent closes a descriptor that is not a standard stream. -/
  | close (fd : ℕ)
  | exit (k : ℕ)
deriving DecidableEq, Repr

def step (s : Family) : Input → Option Family
  | .spawn =>
      let (args, table) := openPipes s.children.length s.parent
      (subprocess args table).map fun child =>
        ⟨closeEnds args table, s.children ++ [some (exec child)]⟩
  | .close fd => if 2 < fd then some { s with parent := s.parent.free fd } else none
  | .exit k => if k < s.children.length then some { s with children := s.children.set k none } else none

/-- A parent with these descriptors; a Boolean is the flag of an open one. -/
def start (cells : List (Option Bool)) : Family where
  parent := ⟨cells.map (Option.map fun cloexec => ⟨.inherited, cloexec⟩)⟩

/-- The descriptors of a process: of the parent, or of a child. -/
def Family.table (s : Family) : Option ℕ → Slots Entry
  | none => s.parent
  | some k => (s.children[k]?.join).getD ⟨[]⟩

/-- The process has a descriptor for it. -/
def Family.Holds (s : Family) (process : Option ℕ) (ref : Ref) : Prop :=
  ∃ n e, (s.table process).get n = some e ∧ e.ref = ref

/-! ## As one child sees it -/

section Views

/-- A descriptor as child `k` sees it: the pipes of its siblings are nothing to it. -/
def Entry.seenBy (k : ℕ) (e : Entry) : Fd where
  file :=
    match e.ref with
    | .inherited => .inherited
    | .rd j channel => if j = k then .rd channel else .inherited
    | .wr j channel => if j = k then .wr channel else .inherited
  cloexec := e.cloexec

theorem openPipe_seenBy (k : ℕ) (channel : Channel) (table : Slots Entry) :
    newPipe channel (table.map (Entry.seenBy k)) =
      ((openPipe k channel table).1, (openPipe k channel table).2.map (Entry.seenBy k)) := by
  have rd : (⟨.rd channel, true⟩ : Fd) = Entry.seenBy k ⟨.rd k channel, true⟩ := by
    simp [Entry.seenBy]
  have wr : (⟨.wr channel, true⟩ : Fd) = Entry.seenBy k ⟨.wr k channel, true⟩ := by
    simp [Entry.seenBy]
  simp only [newPipe, openPipe, rd, wr, Slots.alloc_map, Slots.next_map]

theorem openPipes_seenBy (k : ℕ) (table : Slots Entry) :
    childArgs (table.map (Entry.seenBy k)) =
      ((openPipes k table).1, (openPipes k table).2.map (Entry.seenBy k)) := by
  simp only [childArgs, openPipes, openPipe_seenBy]

theorem redirect_eq_move (fds : Slots Fd) (source target : ℕ) :
    redirect fds source target = fds.move (fun entry => { entry with cloexec := false }) source
      target := by
  simp only [redirect, dup, dup2, Slots.move, Option.bind_eq_bind]
  cases fds.get source with
  | none => rfl
  | some entry =>
      simp only [Option.map_some, Option.bind_some]
      cases ((fds.alloc { entry with cloexec := false }).free source).get fds.next <;> rfl

theorem subprocess_seenBy (k : ℕ) (args : ChildArgs) (table : Slots Entry) :
    SpawnStreams.subprocess args (table.map (Entry.seenBy k)) =
      (subprocess args table).map (Slots.map (Entry.seenBy k)) := by
  have move (table : Slots Entry) (source target : ℕ) :
      redirect (table.map (Entry.seenBy k)) source target =
        (table.move Entry.copy source target).map (Slots.map (Entry.seenBy k)) := by
    have commutes : ∀ e, Entry.seenBy k (Entry.copy e) = { Entry.seenBy k e with cloexec := false } :=
      fun _ => rfl
    rw [redirect_eq_move]
    exact Slots.move_map commutes table source target
  simp only [SpawnStreams.subprocess, subprocess, Slots.free_map, move, Option.bind_eq_bind]
  cases (table.free args.result.rd).move Entry.copy args.input.rd 0 with
  | none => rfl
  | some first =>
      simp only [Option.map_some, Option.bind_some, move]
      cases first.move Entry.copy args.out.wr 1 with
      | none => rfl
      | some second => simp only [Option.map_some, Option.bind_some, move]

end Views

/-! ## One spawn -/

section Spawn

variable {k : ℕ} {table : Slots Entry}

/-- The numbers of the pipes are all different, and higher than what is in use below them. -/
structure Ascending (args : ChildArgs) : Prop where
  result : args.result.rd < args.result.wr
  input : args.result.wr < args.input.rd ∧ args.input.rd < args.input.wr
  out : args.input.wr < args.out.rd ∧ args.out.rd < args.out.wr
  err : args.out.wr < args.err.rd ∧ args.err.rd < args.err.wr

theorem openPipes_ascending {args : ChildArgs} {table' : Slots Entry}
    (opened : openPipes k table = (args, table')) : Ascending args := by
  cases opened
  have later := Slots.next_lt_next_alloc (α := Entry)
  exact ⟨later _ _, ⟨later _ _, later _ _⟩, ⟨later _ _, later _ _⟩, later _ _, later _ _⟩

/-- The pipes of a spawn, and nothing else, are new. -/
theorem openPipes_get {args : ChildArgs} {table' : Slots Entry}
    (opened : openPipes k table = (args, table')) (n : ℕ) :
    table'.get n =
      if n = args.err.wr then some ⟨.wr k .err, true⟩
      else if n = args.err.rd then some ⟨.rd k .err, true⟩
      else if n = args.out.wr then some ⟨.wr k .out, true⟩
      else if n = args.out.rd then some ⟨.rd k .out, true⟩
      else if n = args.input.wr then some ⟨.wr k .input, true⟩
      else if n = args.input.rd then some ⟨.rd k .input, true⟩
      else if n = args.result.wr then some ⟨.wr k .result, true⟩
      else if n = args.result.rd then some ⟨.rd k .result, true⟩
      else table.get n := by
  cases opened
  simp only [Slots.get_alloc]

variable {args : ChildArgs} {table' : Slots Entry}

/-- With the standard streams in use, the pipes have higher numbers. -/
theorem high_of_std (opened : openPipes k table = (args, table'))
    (std : ∀ n ≤ 2, table.get n ≠ none) : 2 < args.result.rd := by
  cases opened
  by_contra low
  exact std _ (Nat.le_of_not_lt low) table.get_next

/-- The descriptors of the child at the end of the redirection loop. -/
theorem subprocess_get (opened : openPipes k table = (args, table'))
    (std : ∀ n ≤ 2, table.get n ≠ none) :
    ∃ child, subprocess args table' = some child ∧ ∀ n, child.get n =
      if n = 2 then some ⟨.wr k .err, false⟩
      else if n = 1 then some ⟨.wr k .out, false⟩
      else if n = 0 then some ⟨.rd k .input, false⟩
      else if n = args.err.wr ∨ n = args.out.wr ∨ n = args.input.rd ∨ n = args.result.rd then none
      else table'.get n := by
  obtain ⟨result, ⟨input, input'⟩, ⟨out, out'⟩, err, err'⟩ := openPipes_ascending opened
  have high := high_of_std opened std
  have get' := openPipes_get opened
  have get₀ (n : ℕ) : (table'.free args.result.rd).get n =
      if n = args.result.rd then none else table'.get n := Slots.get_free _ _ _
  -- The standard streams stay in use throughout.
  have used : ∀ n ≤ 2, table'.get n ≠ none := by
    intro n low
    simp (disch := omega) only [get', if_neg]
    exact std n low
  have held₀ : (table'.free args.result.rd).get args.input.rd = some ⟨.rd k .input, true⟩ := by
    simp (disch := omega) only [get₀, get', if_neg, if_true]
  obtain ⟨first, moved₁, get₁⟩ := Slots.get_move Entry.copy held₀
    (show (table'.free args.result.rd).get 0 ≠ none by
      rw [get₀, if_neg (by omega)]
      exact used 0 (by omega))
  have held₁ : first.get args.out.wr = some ⟨.wr k .out, true⟩ := by
    simp (disch := omega) only [get₁, get₀, get', if_neg, if_true]
  obtain ⟨second, moved₂, get₂⟩ := Slots.get_move Entry.copy held₁
    (show first.get 1 ≠ none by
      rw [get₁, if_neg (by omega), if_neg (by omega), get₀, if_neg (by omega)]
      exact used 1 (by omega))
  have held₂ : second.get args.err.wr = some ⟨.wr k .err, true⟩ := by
    simp (disch := omega) only [get₂, get₁, get₀, get', if_neg, if_true]
  obtain ⟨third, moved₃, get₃⟩ := Slots.get_move Entry.copy held₂
    (show second.get 2 ≠ none by
      rw [get₂, if_neg (by omega), if_neg (by omega), get₁, if_neg (by omega), if_neg (by omega),
        get₀, if_neg (by omega)]
      exact used 2 (by omega))
  refine ⟨third, ?_, fun n => ?_⟩
  · simp only [subprocess, moved₁, moved₂, moved₃, Option.bind_eq_bind, Option.bind_some]
  · rw [get₃, get₂, get₁, get₀]
    simp only [Entry.copy]
    split_ifs <;> first | rfl | omega

theorem exec_get (table : Slots Entry) (n : ℕ) :
    (exec table).get n = (table.get n).filter (!·.cloexec) := by
  simp only [exec, Slots.get, List.getElem?_map]
  cases table.cells[n]? <;> rfl

theorem closeEnds_get (n : ℕ) : (closeEnds args table).get n =
    if n = args.result.rd ∨ n = args.err.wr ∨ n = args.out.wr ∨ n = args.input.rd ∨
        n = args.result.wr then none
    else table.get n := by
  simp only [closeEnds, Slots.get_free]
  split_ifs <;> simp_all

end Spawn

/-! ## All processes -/

/-- An end that the parent keeps for child `k`. -/
def Kept (k : ℕ) (ref : Ref) : Prop := ref = .wr k .input ∨ ref = .rd k .out ∨ ref = .rd k .err

/-- An end that child `k` has for one of its streams. -/
def Stream (k : ℕ) (ref : Ref) : Prop := ref = .rd k .input ∨ ref = .wr k .out ∨ ref = .wr k .err

/-- The descriptors of child `k`. -/
structure Child (k : ℕ) (table : Slots Entry) : Prop where
  stdin : table.get 0 = some ⟨.rd k .input, false⟩
  stdout : table.get 1 = some ⟨.wr k .out, false⟩
  stderr : table.get 2 = some ⟨.wr k .err, false⟩
  others : ∀ n e, 2 < n → table.get n = some e → e.ref = .inherited

/-- Every process has its own ends and no others. -/
structure Apart (s : Family) : Prop where
  std : ∀ n ≤ 2, s.parent.get n ≠ none
  parent : ∀ n e, s.parent.get n = some e → e.ref = .inherited ∨
    e.cloexec = true ∧ ∃ k < s.children.length, Kept k e.ref
  single : ∀ n n' e e', s.parent.get n = some e → s.parent.get n' = some e' → e.ref = e'.ref →
    e.ref ≠ .inherited → n = n'
  children : ∀ k table, s.children[k]? = some (some table) → Child k table

section Steps

variable {s s' : Family}

theorem start_apart {cells : List (Option Bool)} (std : ∀ n ≤ 2, (start cells).parent.get n ≠ none) :
    Apart (start cells) := by
  have inherited : ∀ n e, (start cells).parent.get n = some e → e.ref = .inherited := by
    intro n e held
    simp only [start, Slots.get, List.getElem?_map] at held
    cases cell : cells[n]? with
    | none => simp [cell] at held
    | some flag =>
        cases flag with
        | none => simp [cell] at held
        | some cloexec =>
            rw [cell] at held
            cases held
            rfl
  exact ⟨std, fun n e held => .inl (inherited n e held),
    fun n n' e e' held _ _ other => absurd (inherited n e held) other, by simp [start]⟩

/-- The descriptor for an end that the parent keeps. -/
def place (args : ChildArgs) : Ref → ℕ
  | .rd _ .out => args.out.rd
  | .rd _ .err => args.err.rd
  | _ => args.input.wr

/-- What the parent has after a spawn. -/
theorem parent_after_spawn {k : ℕ} {table table' : Slots Entry} {args : ChildArgs}
    (opened : openPipes k table = (args, table')) {n : ℕ} {e : Entry}
    (held : (closeEnds args table').get n = some e) :
    table.get n = some e ∨ e.cloexec = true ∧ Kept k e.ref ∧ n = place args e.ref := by
  rw [closeEnds_get] at held
  split at held
  · cases held
  · rename_i other
    simp only [not_or] at other
    obtain ⟨result, err, out, input, result'⟩ := other
    rw [openPipes_get opened] at held
    simp only [result, err, out, input, result', if_false] at held
    split_ifs at held with one two three
    · cases held
      exact .inr ⟨rfl, .inr (.inr rfl), one⟩
    · cases held
      exact .inr ⟨rfl, .inr (.inl rfl), two⟩
    · cases held
      exact .inr ⟨rfl, .inl rfl, three⟩
    · exact .inl held

theorem Kept.child_eq {j k : ℕ} {ref : Ref} (kept : Kept j ref) (kept' : Kept k ref) : j = k := by
  rcases kept with rfl | rfl | rfl <;> simpa [Kept] using kept'

/-- The ends of the next child are not there yet. -/
theorem Apart.not_kept (apart : Apart s) {n : ℕ} {e : Entry} (held : s.parent.get n = some e) :
    ¬ Kept s.children.length e.ref := by
  intro own
  rcases apart.parent n e held with old | ⟨-, k, inside, kept⟩
  · simp [old, Kept] at own
  · exact absurd inside (own.child_eq kept ▸ lt_irrefl _)

/-- A new child has its own streams, and what is left of its other descriptors is old. -/
theorem child_of_spawn (apart : Apart s) {args : ChildArgs} {table' child : Slots Entry}
    (opened : openPipes s.children.length s.parent = (args, table'))
    (ran : subprocess args table' = some child) : Child s.children.length (exec child) := by
  obtain ⟨final, done, get⟩ := subprocess_get opened apart.std
  obtain rfl : final = child := Option.some.inj (done.symm.trans ran)
  refine ⟨by rw [exec_get, get]; rfl, by rw [exec_get, get]; rfl, by rw [exec_get, get]; rfl,
    fun n e high held => ?_⟩
  rw [exec_get, Option.filter_eq_some_iff] at held
  obtain ⟨held, flag⟩ := held
  have lasting : e.cloexec = false := by simpa using flag
  rw [get, if_neg (by omega), if_neg (by omega), if_neg (by omega)] at held
  split at held
  · cases held
  · rw [openPipes_get opened] at held
    split_ifs at held <;> try (cases held; cases lasting)
    rcases apart.parent n e held with old | ⟨closes, -⟩
    · exact old
    · rw [lasting] at closes
      cases closes

theorem Apart.spawn (apart : Apart s) {args : ChildArgs} {table' child : Slots Entry}
    (opened : openPipes s.children.length s.parent = (args, table'))
    (ran : subprocess args table' = some child) :
    Apart ⟨closeEnds args table', s.children ++ [some (exec child)]⟩ where
  std n low := by
    have high := high_of_std opened apart.std
    obtain ⟨result, ⟨input, input'⟩, ⟨out, out'⟩, err, err'⟩ := openPipes_ascending opened
    rw [closeEnds_get, if_neg (by omega), openPipes_get opened]
    simp (disch := omega) only [if_neg]
    exact apart.std n low
  parent n e held := by
    have longer : s.children.length < (s.children ++ [some (exec child)]).length := by simp
    rcases parent_after_spawn opened held with old | ⟨flag, kept, -⟩
    · refine (apart.parent n e old).imp_right fun ⟨flag, k, inside, kept⟩ => ?_
      exact ⟨flag, k, inside.trans longer, kept⟩
    · exact .inr ⟨flag, _, longer, kept⟩
  single n n' e e' held held' same other := by
    rcases parent_after_spawn opened held with old | ⟨-, kept, here⟩ <;>
      rcases parent_after_spawn opened held' with old' | ⟨-, kept', here'⟩
    · exact apart.single n n' e e' old old' same other
    · exact absurd (same ▸ kept') (apart.not_kept old)
    · exact absurd (same ▸ kept) (apart.not_kept old')
    · rw [here, here', same]
  children k table held := by
    rw [List.getElem?_append] at held
    split at held
    · exact apart.children k table held
    · rename_i late
      obtain ⟨last, rfl⟩ : k - s.children.length = 0 ∧ exec child = table := by
        obtain ⟨inside, here⟩ := List.getElem?_eq_some_iff.1 held
        have zero : k - s.children.length = 0 := by simpa using inside
        simp only [zero, List.getElem_cons_zero] at here
        exact ⟨zero, Option.some.inj here⟩
      obtain rfl : k = s.children.length := by omega
      exact child_of_spawn apart opened ran

theorem Apart.after_step (apart : Apart s) {input : Input} (stepped : step s input = some s') :
    Apart s' := by
  cases input with
  | spawn =>
      obtain ⟨child, ran, rfl⟩ := Option.map_eq_some_iff.1 stepped
      exact apart.spawn rfl ran
  | close fd =>
      obtain ⟨high, same⟩ := Option.ite_none_right_eq_some.1 stepped
      cases same
      have old : ∀ {n e}, (s.parent.free fd).get n = some e → s.parent.get n = some e := by
        intro n e held
        rw [Slots.get_free] at held
        split at held
        · cases held
        · exact held
      refine ⟨fun n low => ?_, fun n e held => apart.parent n e (old held),
        fun n n' e e' held held' => apart.single n n' e e' (old held) (old held'), apart.children⟩
      rw [Slots.get_free, if_neg (by omega)]
      exact apart.std n low
  | exit k =>
      obtain ⟨inside, same⟩ := Option.ite_none_right_eq_some.1 stepped
      cases same
      refine ⟨apart.std, fun n e held => ?_, apart.single, fun j table held => ?_⟩
      · simpa using apart.parent n e held
      · rw [List.getElem?_set] at held
        split at held
        · cases held
        · exact apart.children j table held

/-- What a process can have. -/
theorem Apart.held_cases (apart : Apart s) {process : Option ℕ} {ref : Ref}
    (held : s.Holds process ref) : ref = .inherited ∨ (process = none ∧ ∃ k, Kept k ref) ∨
      ∃ k, process = some k ∧ Stream k ref := by
  obtain ⟨n, e, held, rfl⟩ := held
  cases process with
  | none =>
      refine (apart.parent n e held).imp_right fun ⟨_, k, _, kept⟩ => .inl ⟨rfl, k, kept⟩
  | some k =>
      have running : ∃ table, s.children[k]? = some (some table) ∧ table.get n = some e := by
        simp only [Family.table] at held
        cases found : s.children[k]?.join with
        | none => simp [found, Slots.get] at held
        | some table =>
            rw [found] at held
            exact ⟨table, Option.join_eq_some_iff.1 found, held⟩
      obtain ⟨table, running, held⟩ := running
      obtain ⟨stdin, stdout, stderr, others⟩ := apart.children k table running
      by_cases high : 2 < n
      · exact .inl (others n e high held)
      · refine .inr (.inr ⟨k, rfl, ?_⟩)
        obtain rfl | rfl | rfl : n = 0 ∨ n = 1 ∨ n = 2 := by omega
        · exact .inl (by rw [← Option.some.inj (stdin.symm.trans held)])
        · exact .inr (.inl (by rw [← Option.some.inj (stdout.symm.trans held)]))
        · exact .inr (.inr (by rw [← Option.some.inj (stderr.symm.trans held)]))

end Steps

/-- **Every end of a pipe is where it belongs.** In every state of a family whose parent had its
standard streams open in the beginning, and for every child: the write end of its input and the
read ends of its output and its errors are with the parent, under one descriptor each; the read end
of its input and the write ends of its output and its errors are with the child, which has them as
its standard streams as long as it runs; and nobody has an end of its result pipe. -/
theorem ends_apart {cells : List (Option Bool)} {s : Family}
    (std : ∀ n ≤ 2, (start cells).parent.get n ≠ none)
    (reachable : Reachable step (start cells) s) (k : ℕ) :
    (∀ process ref, s.Holds process ref → Kept k ref → process = none) ∧
      (∀ n n' e e', s.parent.get n = some e → s.parent.get n' = some e' → e.ref = e'.ref →
        Kept k e.ref → n = n') ∧
      (∀ process ref, s.Holds process ref → Stream k ref → process = some k) ∧
      (∀ table, s.children[k]? = some (some table) → table.get 0 = some ⟨.rd k .input, false⟩ ∧
        table.get 1 = some ⟨.wr k .out, false⟩ ∧ table.get 2 = some ⟨.wr k .err, false⟩) ∧
      ∀ process, ¬ s.Holds process (.rd k .result) ∧ ¬ s.Holds process (.wr k .result) := by
  have apart : Apart s :=
    reachable.invariant (start_apart std) fun _ _ _ apart stepped => apart.after_step stepped
  refine ⟨fun process ref held kept => ?_, fun n n' e e' held held' same kept => ?_,
    fun process ref held stream => ?_, fun table running => ?_, fun process => ⟨fun held => ?_,
    fun held => ?_⟩⟩
  · rcases apart.held_cases held with rfl | ⟨parent, -⟩ | ⟨j, -, stream⟩
    · simp [Kept] at kept
    · exact parent
    · rcases kept with rfl | rfl | rfl <;> simp [Stream] at stream
  · refine apart.single n n' e e' held held' same fun inherited => ?_
    simp [inherited, Kept] at kept
  · rcases apart.held_cases held with rfl | ⟨-, j, kept⟩ | ⟨j, rfl, own⟩
    · simp [Stream] at stream
    · rcases stream with rfl | rfl | rfl <;> simp [Kept] at kept
    · rcases stream with rfl | rfl | rfl <;> simpa [Stream, eq_comm] using own
  · have child := apart.children k table running
    exact ⟨child.stdin, child.stdout, child.stderr⟩
  all_goals
    rcases apart.held_cases held with other | ⟨-, j, kept⟩ | ⟨j, -, stream⟩
    · cases other
    · simp [Kept] at kept
    · simp [Stream] at stream

/-- Two children, of which the first has ended; the parent has closed the input of the second. -/
theorem ends_apart_sample :
    ∃ s, run step (start [some false, some false, some false])
        [.spawn, .spawn, .exit 0, .close 8] = some s ∧
      s.Holds (some 1) (.rd 1 .input) ∧ ∀ process, ¬ s.Holds process (.wr 1 .result) := by
  have facts : ∀ s ∈ run step (start [some false, some false, some false])
      [.spawn, .spawn, .exit 0, .close 8],
      (s.table (some 1)).get 0 = some ⟨.rd 1 .input, false⟩ := by decide
  obtain ⟨s, reaches⟩ := Option.isSome_iff_exists.1
    (show (run step (start [some false, some false, some false])
      [.spawn, .spawn, .exit 0, .close 8]).isSome by decide)
  obtain ⟨-, -, -, -, result⟩ := ends_apart (by decide) ⟨_, reaches⟩ 1
  exact ⟨s, reaches, ⟨0, _, facts s reaches, rfl⟩, fun process => (result process).2⟩

end Enuwatch.SpawnFamily

import Enuwatch.Spawn

/-!
# The standard streams of a spawned process

The child of `_process_spawn` moves its ends of three pipes to the descriptors 0, 1 and 2. For
each it duplicates the end to the lowest free number, closes the end, duplicates once more to
the target and closes the temporary. All ends are close-on-exec; only the last duplication takes
that flag off.

The lowest free number is never a target when 0, 1 and 2 are in use from the start, and then
each stream arrives (`redirect_get`). When one of them is free the temporary for that target is
the target itself, the second duplication does nothing, and the close takes the stream away
(`LowestFree.redirect`). So the streams are right exactly when the parent had all three open
(`child_streams_iff`).
-/

set_option autoImplicit false

namespace Enuwatch.SpawnStreams

open Enuwatch.Lib

/-- The pipes between parent and child. -/
inductive Channel where
  | result
  | input
  | out
  | err
deriving DecidableEq, Repr

/-- What an open descriptor refers to. -/
inductive File where
  | inherited
  | rd (pipe : Channel)
  | wr (pipe : Channel)
deriving DecidableEq, Repr

/-- An open descriptor, and whether `exec` closes it. -/
structure Fd where
  file : File
  cloexec : Bool
deriving DecidableEq, Repr

/-- The descriptors of a process; `none` marks a closed one, and a Boolean the flag of an open
one. -/
def inheritedFds (cells : List (Option Bool)) : Slots Fd :=
  ⟨cells.map (Option.map fun cloexec => ⟨.inherited, cloexec⟩)⟩

/-! ## The system calls -/

/-- `Pipe::Pipe`: a pipe, both ends close-on-exec. -/
def newPipe (channel : Channel) (fds : Slots Fd) : Pipe × Slots Fd :=
  let reading := fds.alloc ⟨.rd channel, true⟩
  (⟨fds.next, reading.next⟩, reading.alloc ⟨.wr channel, true⟩)

/-- `dup`: the lowest free number, without the flag. -/
def dup (fd : ℕ) (fds : Slots Fd) : Option (ℕ × Slots Fd) :=
  (fds.get fd).map fun entry => (fds.next, fds.alloc { entry with cloexec := false })

/-- `dup2`, which does nothing when the two numbers are the same. -/
def dup2 (source target : ℕ) (fds : Slots Fd) : Option (Slots Fd) :=
  (fds.get source).map fun entry =>
    if source = target then fds else fds.put target { entry with cloexec := false }

/-! ## The child -/

structure ChildArgs where
  result : Pipe
  input : Pipe
  out : Pipe
  err : Pipe
deriving DecidableEq, Repr

/-- The pipes of `_process_spawn`, and the descriptors that the child starts with. -/
def childArgs (fds : Slots Fd) : ChildArgs × Slots Fd :=
  let (result, fds) := newPipe .result fds
  let (input, fds) := newPipe .input fds
  let (out, fds) := newPipe .out fds
  let (err, fds) := newPipe .err fds
  (⟨result, input, out, err⟩, fds)

/-- One round of the redirection loop; it fails when a call does. -/
def redirect (fds : Slots Fd) (source target : ℕ) : Option (Slots Fd) := do
  let (tmp, fds) ← dup source fds
  let fds := fds.free source
  let fds ← dup2 tmp target fds
  return fds.free tmp

/-- `subprocess` up to the end of the redirection loop. -/
def subprocess (args : ChildArgs) (fds : Slots Fd) : Option (Slots Fd) := do
  let fds := fds.free args.result.rd
  let fds ← redirect fds args.input.rd 0
  let fds ← redirect fds args.out.wr 1
  redirect fds args.err.wr 2

/-- The streams of the child as its program has to find them, and the end of the result pipe on
which a failing `execve` is reported. -/
structure StreamsOk (args : ChildArgs) (fds : Slots Fd) : Prop where
  stdin : fds.get 0 = some ⟨.rd .input, false⟩
  stdout : fds.get 1 = some ⟨.wr .out, false⟩
  stderr : fds.get 2 = some ⟨.wr .err, false⟩
  result : fds.get args.result.wr = some ⟨.wr .result, true⟩

/-- The child reaches `execve` with the right streams. -/
def ChildStreamsOk (cells : List (Option Bool)) : Prop :=
  let (args, fds) := childArgs (inheritedFds cells)
  ∃ fds', subprocess args fds = some fds' ∧ StreamsOk args fds'

/-! ## The pipes are those of the process object -/

/-- The end of a pipe that a descriptor is. -/
def Fd.kind (entry : Fd) : PipeEnd :=
  match entry.file with
  | .inherited => .other
  | .rd _ => .rd
  | .wr _ => .wr

theorem newPipe_kind (channel : Channel) (fds : Slots Fd) :
    Pipe.new (fds.map Fd.kind) =
      ((newPipe channel fds).1, (newPipe channel fds).2.map Fd.kind) := by
  have first : (fds.map Fd.kind).alloc .rd = (fds.alloc ⟨.rd channel, true⟩).map Fd.kind :=
    Slots.alloc_map Fd.kind fds ⟨.rd channel, true⟩
  have second := Slots.alloc_map Fd.kind (fds.alloc ⟨.rd channel, true⟩) ⟨.wr channel, true⟩
  simp only [Pipe.new, newPipe, first, Slots.next_map, Prod.mk.injEq, true_and]
  exact second

/-- The process object holds the parent's ends of the child's pipes. -/
theorem processSpawn_eq (fds : Slots Fd) (pid : ℤ) :
    processSpawn (fds.map Fd.kind) pid =
      ⟨pid, (childArgs fds).1.input.wr, (childArgs fds).1.out.rd, (childArgs fds).1.err.rd⟩ := by
  have result := newPipe_kind .result fds
  have input := newPipe_kind .input (newPipe .result fds).2
  have out := newPipe_kind .out (newPipe .input (newPipe .result fds).2).2
  have err := newPipe_kind .err (newPipe .out (newPipe .input (newPipe .result fds).2).2).2
  simp only [processSpawn, result, input, out, err, childArgs]

/-! ## The descriptors of the child -/

/-- A new pipe takes free numbers and leaves the others alone. -/
structure Opens (channel : Channel) (fds : Slots Fd) (pipe : Pipe) (fds' : Slots Fd) : Prop where
  rd_eq : pipe.rd = fds.next
  rd_lt : pipe.rd < pipe.wr
  wr_lt : pipe.wr < fds'.next
  rd_get : fds'.get pipe.rd = some ⟨.rd channel, true⟩
  wr_get : fds'.get pipe.wr = some ⟨.wr channel, true⟩
  kept : ∀ n, fds.get n ≠ none → fds'.get n = fds.get n

theorem newPipe_opens (channel : Channel) (fds : Slots Fd) :
    Opens channel fds (newPipe channel fds).1 (newPipe channel fds).2 where
  rd_eq := rfl
  rd_lt := Slots.next_lt_next_alloc _ _
  wr_lt := Slots.next_lt_next_alloc _ _
  rd_get := by
    have reading : (fds.alloc ⟨.rd channel, true⟩).get fds.next ≠ none := by simp
    exact (Slots.get_alloc_of_ne_none reading).trans (Slots.get_alloc_next _ _)
  wr_get := Slots.get_alloc_next _ _
  kept := by
    intro n used
    have reading : (fds.alloc ⟨.rd channel, true⟩).get n = fds.get n :=
      Slots.get_alloc_of_ne_none used
    exact (Slots.get_alloc_of_ne_none (by rwa [reading])).trans reading

/-- The child's descriptors: the parent's, and the ends of the four pipes at free numbers, in the
order in which the pipes were made. -/
structure ChildFds (fds : Slots Fd) (args : ChildArgs) (fds' : Slots Fd) : Prop where
  first : args.result.rd = fds.next
  ascending : args.result.rd < args.result.wr ∧ args.result.wr < args.input.rd ∧
    args.input.rd < args.out.wr ∧ args.out.wr < args.err.wr
  result : fds'.get args.result.wr = some ⟨.wr .result, true⟩
  input : fds'.get args.input.rd = some ⟨.rd .input, true⟩
  out : fds'.get args.out.wr = some ⟨.wr .out, true⟩
  err : fds'.get args.err.wr = some ⟨.wr .err, true⟩
  kept : ∀ n, fds.get n ≠ none → fds'.get n = fds.get n

theorem childArgs_fds (fds : Slots Fd) : ChildFds fds (childArgs fds).1 (childArgs fds).2 := by
  let fds₁ := (newPipe .result fds).2
  let fds₂ := (newPipe .input fds₁).2
  let fds₃ := (newPipe .out fds₂).2
  have result : Opens .result fds _ fds₁ := newPipe_opens .result fds
  have input : Opens .input fds₁ _ fds₂ := newPipe_opens .input fds₁
  have out : Opens .out fds₂ _ fds₃ := newPipe_opens .out fds₂
  have err : Opens .err fds₃ _ (newPipe .err fds₃).2 := newPipe_opens .err fds₃
  have used : ∀ {fds : Slots Fd} {n : ℕ} {entry : Fd}, fds.get n = some entry →
      fds.get n ≠ none := by
    intro fds n entry here
    simp [here]
  have kept₃ : ∀ n, fds₂.get n ≠ none → (newPipe .err fds₃).2.get n = fds₂.get n := by
    intro n here
    have early := out.kept n here
    rw [err.kept n (by rwa [early]), early]
  have kept₂ : ∀ n, fds₁.get n ≠ none → (newPipe .err fds₃).2.get n = fds₁.get n := by
    intro n here
    have early := input.kept n here
    rw [kept₃ n (by rwa [early]), early]
  have input_lt_out := input.rd_lt.trans (input.wr_lt.trans out.rd_lt)
  have out_lt_err := out.wr_lt.trans err.rd_lt
  exact {
    first := rfl
    ascending := ⟨result.rd_lt, result.wr_lt, input_lt_out, out_lt_err⟩
    result := (kept₂ _ (used result.wr_get)).trans result.wr_get
    input := (kept₃ _ (used input.rd_get)).trans input.rd_get
    out := (err.kept _ (used out.wr_get)).trans out.wr_get
    err := err.wr_get
    kept := by
      intro n here
      have early := result.kept n here
      exact (kept₂ n (by rwa [early])).trans early }

/-! ## The redirection loop -/

section

variable {fds fds' : Slots Fd} {source target : ℕ}

/-- The standard streams are open. -/
def StdOpen (fds : Slots Fd) : Prop := ∀ n ≤ 2, fds.get n ≠ none

/-- With the standard streams open, a round moves an end to its target and changes nothing
else. -/
theorem redirect_get {entry : Fd} (std : StdOpen fds) (held : fds.get source = some entry)
    (low : target ≤ 2) :
    ∃ fds', redirect fds source target = some fds' ∧ ∀ n, fds'.get n =
      if n = target then some { entry with cloexec := false }
      else if n = source then none else fds.get n := by
  let tmp := fds.next
  have free : fds.get tmp = none := fds.get_next
  have tmp_source : tmp ≠ source := by
    intro same
    rw [same, held] at free
    cases free
  have tmp_target : tmp ≠ target := by
    intro same
    rw [same] at free
    exact std target low free
  let copied := (fds.alloc { entry with cloexec := false }).free source
  have copy : copied.get tmp = some { entry with cloexec := false } := by
    simp [copied, Slots.get_free, tmp_source, tmp]
  refine ⟨(copied.put target { entry with cloexec := false }).free tmp, ?_, ?_⟩
  · simp only [redirect, dup, held, Option.map_some, Option.bind_eq_bind, Option.bind_some]
    change ((dup2 tmp target copied).bind fun fds => some (fds.free tmp)) = _
    simp only [dup2, copy, Option.map_some, if_neg tmp_target, Option.bind_some]
  · intro n
    rw [Slots.get_free, Slots.get_put, Slots.get_free, Slots.get_alloc]
    by_cases temporary : n = tmp
    · subst temporary
      simp [tmp_source, tmp_target, free]
    · have other : n ≠ fds.next := temporary
      simp [temporary, other]

theorem StdOpen.redirect {entry : Fd} (std : StdOpen fds) (high : 2 < source)
    (moved : ∀ n, fds'.get n =
      if n = target then some entry else if n = source then none else fds.get n) :
    StdOpen fds' := by
  intro n low
  rw [moved]
  split
  · simp
  · rw [if_neg (by omega)]
    exact std n low

/-- `c` is the lowest number that is not in use. -/
def LowestFree (c : ℕ) (fds : Slots Fd) : Prop := (∀ n < c, fds.get n ≠ none) ∧ fds.get c = none

theorem LowestFree.next_eq {c : ℕ} (lowest : LowestFree c fds) : fds.next = c := by
  rcases Nat.lt_trichotomy fds.next c with below | same | above
  · exact absurd fds.get_next (lowest.1 _ below)
  · exact same
  · exact absurd lowest.2 (Slots.get_of_lt_next above)

/-- A round whose end lies above the lowest free number leaves that number free: the temporary
takes it, and the last close gives it back, whether or not it is the target. -/
theorem LowestFree.redirect {c : ℕ} (lowest : LowestFree c fds) (above : c < source)
    (done : redirect fds source target = some fds') : LowestFree c fds' := by
  obtain ⟨used, free⟩ := lowest
  have next : fds.next = c := LowestFree.next_eq ⟨used, free⟩
  obtain ⟨⟨tmp, copied⟩, duplicated, done⟩ := Option.bind_eq_some_iff.1 done
  obtain ⟨entry, held, pair⟩ := Option.map_eq_some_iff.1 duplicated
  cases pair
  obtain ⟨placed, second, last⟩ := Option.bind_eq_some_iff.1 done
  cases last
  obtain ⟨copy, -, rfl⟩ := Option.map_eq_some_iff.1 second
  rw [next]
  constructor
  · intro n below
    have kept : ((fds.alloc { entry with cloexec := false }).free source).get n ≠ none := by
      rw [Slots.get_free, if_neg (by omega), Slots.get_alloc_of_ne_none (used n below)]
      exact used n below
    rw [Slots.get_free, if_neg (by omega)]
    split
    · exact kept
    · rw [Slots.get_put]
      split
      · simp
      · exact kept
  · rw [Slots.get_free, if_pos rfl]

end

/-! ## The streams -/

section

variable {fds fds' : Slots Fd} {args : ChildArgs}

/-- With the standard streams of the parent open, the child gets its own. -/
theorem ChildFds.streamsOk (child : ChildFds fds args fds') (std : StdOpen fds) :
    ∃ final, subprocess args fds' = some final ∧ StreamsOk args final := by
  obtain ⟨first, ⟨rd_lt, wr_lt, input_lt, out_lt⟩, result, input, out, err, kept⟩ := child
  have high : 2 < args.result.rd := by
    by_contra low
    have free := fds.get_next
    rw [← first] at free
    exact std _ (Nat.le_of_not_lt low) free
  have get₀ : ∀ n, n ≠ args.result.rd → (fds'.free args.result.rd).get n = fds'.get n := by
    intro n other
    rw [Slots.get_free, if_neg other]
  have std₀ : StdOpen (fds'.free args.result.rd) := by
    intro n low
    rw [get₀ n (by omega), kept n (std n low)]
    exact std n low
  have input₀ := (get₀ args.input.rd (by omega)).trans input
  obtain ⟨fds₁, done₁, get₁⟩ := redirect_get std₀ input₀ (show 0 ≤ 2 by omega)
  have std₁ : StdOpen fds₁ := std₀.redirect (by omega) get₁
  have out₁ : fds₁.get args.out.wr = some ⟨.wr .out, true⟩ := by
    rw [get₁, if_neg (by omega), if_neg (by omega), get₀ _ (by omega), out]
  obtain ⟨fds₂, done₂, get₂⟩ := redirect_get std₁ out₁ (show 1 ≤ 2 by omega)
  have std₂ : StdOpen fds₂ := std₁.redirect (by omega) get₂
  have err₂ : fds₂.get args.err.wr = some ⟨.wr .err, true⟩ := by
    rw [get₂, if_neg (by omega), if_neg (by omega), get₁, if_neg (by omega), if_neg (by omega),
      get₀ _ (by omega), err]
  obtain ⟨fds₃, done₃, get₃⟩ := redirect_get std₂ err₂ (show 2 ≤ 2 by omega)
  refine ⟨fds₃, ?_, ?_⟩
  · simp only [subprocess, done₁, done₂, done₃, Option.bind_eq_bind, Option.bind_some]
  · exact {
      stdin := by
        rw [get₃, if_neg (by omega), if_neg (by omega), get₂, if_neg (by omega),
          if_neg (by omega), get₁, if_pos rfl]
      stdout := by
        rw [get₃, if_neg (by omega), if_neg (by omega), get₂, if_pos rfl]
      stderr := by
        rw [get₃, if_pos rfl]
      result := by
        rw [get₃, if_neg (by omega), if_neg (by omega), get₂, if_neg (by omega),
          if_neg (by omega), get₁, if_neg (by omega), if_neg (by omega), get₀ _ (by omega),
          result] }

/-- The lowest free number of the parent is free in the child when the loop ends. -/
theorem ChildFds.lowestFree (child : ChildFds fds args fds') {final : Slots Fd}
    (done : subprocess args fds' = some final) : LowestFree fds.next final := by
  obtain ⟨first, ⟨rd_lt, wr_lt, input_lt, out_lt⟩, -, -, -, -, kept⟩ := child
  have start : LowestFree fds.next (fds'.free args.result.rd) := by
    constructor
    · intro n below
      have used := Slots.get_of_lt_next below
      rw [Slots.get_free, if_neg (by omega), kept n used]
      exact used
    · rw [Slots.get_free, if_pos first.symm]
  obtain ⟨fds₁, done₁, done⟩ := Option.bind_eq_some_iff.1 done
  obtain ⟨fds₂, done₂, done₃⟩ := Option.bind_eq_some_iff.1 done
  have lowest₁ := start.redirect (by omega) done₁
  have lowest₂ := lowest₁.redirect (by omega) done₂
  exact lowest₂.redirect (by omega) done₃

end

/-- **The streams of a child are right exactly when the parent had its own.** The redirection
loop ends with 0, 1 and 2 open on `in.rd`, `out.wr` and `err.wr` without close-on-exec, and with
`result.wr` as it was, if and only if 0, 1 and 2 were all open when the pipes were made. -/
theorem child_streams_iff (cells : List (Option Bool)) :
    ChildStreamsOk cells ↔ ∀ n ≤ 2, (inheritedFds cells).get n ≠ none := by
  have child := childArgs_fds (inheritedFds cells)
  constructor
  · rintro ⟨final, done, streams⟩
    by_contra missing
    have low : (inheritedFds cells).next ≤ 2 := by
      by_contra high
      apply missing
      intro n low
      apply Slots.get_of_lt_next
      omega
    have closed := (child.lowestFree done).2
    have streams_open : ∀ n ≤ 2, final.get n ≠ none := by
      intro n low
      interval_cases n
      · simp [streams.stdin]
      · simp [streams.stdout]
      · simp [streams.stderr]
    exact streams_open _ low closed
  · intro std
    exact child.streamsOk std

/-- A parent without a standard input: the child has none either. -/
theorem child_without_stdin :
    let child := childArgs (inheritedFds [none, some false, some false])
    (subprocess child.1 child.2).map (·.get 0) = some none ∧
      ¬ ChildStreamsOk [none, some false, some false] := by
  refine ⟨by decide, ?_⟩
  rintro ⟨final, done, streams⟩
  have closed := ((childArgs_fds (inheritedFds [none, some false, some false])).lowestFree done).2
  have opened : final.get 0 ≠ none := by simp [streams.stdin]
  exact opened closed

end Enuwatch.SpawnStreams

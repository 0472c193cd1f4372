import Enuwatch.Display.Frames
import Enuwatch.Lib.Pool

/-!
# Ticks

A thread calls `tick` for every chunk it has sent. The call adds to the counters, and if it gets the
mutex of the root without waiting and the last frame was begun `UPDATE_INTERVAL_MS` ago or earlier,
it draws the next one. The threads, the clock and the bytes that `stdout` hands on go ahead in any
order, and the user may interrupt at any moment, which clears the progress.

One thread at a time has the mutex (`Holds`), so that the frames are begun 80 ms after one another
or later (`draws_spaced`). Their bytes do not mix: whenever none is left to be printed, the terminal
shows the last output below what was there before, unless an interrupt came into the middle of a
frame (`ticks_replaced`). A frame that throws ends the process, which is built without exceptions.
-/

set_option autoImplicit false

namespace Enuwatch.Tick

open Enuwatch.Lib Enuwatch.Display Enuwatch.Progress

/-! ## The threads -/

/-- `UPDATE_INTERVAL_MS`, in nanoseconds. -/
def updateInterval : ℕ := 80000000

/-- Where a thread is in `tick`. -/
inductive Pc where
  | outside
  /-- The first addition is made. -/
  | counted (delta : UInt64)
  /-- Both are made, and `try_lock` comes next. -/
  | summed
  | locked
  /-- It has read the clock. -/
  | timed (now : ℕ)
  /-- It has set `last_draw_` and calls `render_fn_`. -/
  | due (elapsed : ℕ)
  /-- `display_progress` has the text; these bytes of it are not out yet. -/
  | drawing (left : Bytes) (rows : ℕ)
  | leaving
deriving DecidableEq, Repr

namespace Pc

/-- How often it holds the mutex. -/
def held : Pc → ℕ
  | .outside => 0
  | .counted _ => 0
  | .summed => 0
  | .locked => 1
  | .timed _ => 1
  | .due _ => 1
  | .drawing _ _ => 1
  | .leaving => 1

/-- The bytes it still prints. -/
def left : Pc → Bytes
  | .drawing left _ => left
  | _ => []

theorem left_of_held {pc : Pc} (free : pc.held = 0) : pc.left = [] := by
  cases pc with
  | drawing left rows => cases free
  | _ => rfl

end Pc

/-- `TrackedRoot` with the counters of the nodes, the threads, the clock and what was printed. -/
structure Root where
  clock : ℕ
  start : ℕ
  lastDraw : ℕ
  lastDrawnRows : ℕ := 0
  /-- `mutex_`. -/
  locked : Bool := false
  done : List Bytes → UInt64 := fun _ => 0
  sumDone : UInt64 := 0
  sumTotal : UInt64
  threads : List Pc
  output : Bytes := []
  /-- The frames and the clearings that `output` is made of. -/
  outputs : List Output := []
  /-- When the frames were begun. -/
  draws : List ℕ := []
  /-- A frame has thrown, and the process has ended. -/
  ended : Bool := false

inductive Input where
  /-- A thread calls `tick` and adds to `done_`. -/
  | tick (i : ℕ) (node : List Bytes) (delta : UInt64)
  /-- A thread goes on. -/
  | go (i : ℕ)
  /-- `try_lock` fails, as it may also do when the mutex is free. -/
  | busy (i : ℕ)
  /-- `display_progress` has gone through the tree and found this. -/
  | render (i : ℕ) (root : Node)
  /-- Bytes of a frame get to the terminal. -/
  | print (i count : ℕ)
  | wait (ns : ℕ)
  /-- The handler of `SIGINT`, whose three writes come right after one another. -/
  | interrupt

namespace Root

/-- A thread gets to another place. -/
def goto (s : Root) (i : ℕ) (pc : Pc) : Root := { s with threads := s.threads.set i pc }

/-- What a thread does next without anything from outside. -/
def advance (s : Root) (i : ℕ) : Pc → Option Root
  | .counted delta => some { s.goto i .summed with sumDone := s.sumDone + delta }
  | .summed => if s.locked then none else some { s.goto i .locked with locked := true }
  | .locked => some (s.goto i (.timed s.clock))
  | .timed now =>
      if updateInterval ≤ now - s.lastDraw then
        some { s.goto i (.due (now - s.start)) with lastDraw := now, draws := s.draws ++ [now] }
      else some (s.goto i .leaving)
  | .drawing [] rows => some { s.goto i .leaving with lastDrawnRows := rows }
  | .leaving => some { s.goto i .outside with locked := false }
  | .outside => none
  | .due _ => none
  | .drawing (_ :: _) _ => none

/-- The threads on a terminal of `wsRow` rows. -/
def act (wsRow : UInt16) (s : Root) : Input → Option Root
  | .tick i node delta =>
      if s.threads[i]? = some .outside then
        some { s.goto i (.counted delta) with
          done := Function.update s.done node (s.done node + delta) }
      else none
  | .go i => (s.threads[i]?).bind (s.advance i)
  | .busy i => if s.threads[i]? = some .summed then some (s.goto i .outside) else none
  | .render i root =>
      match s.threads[i]? with
      | some (.due elapsed) =>
          match displayProgress (some wsRow) root s.sumDone s.sumTotal elapsed with
          | some (frame, rows) =>
              some { s.goto i (.drawing frame rows) with
                outputs := s.outputs ++ [.draw root s.sumDone s.sumTotal elapsed] }
          | none => some { s with ended := true }
      | _ => none
  | .print i count =>
      match s.threads[i]? with
      | some (.drawing left rows) =>
          some { s.goto i (.drawing (left.drop count) rows) with
            output := s.output ++ left.take count }
      | _ => none
  | .wait ns => some { s with clock := s.clock + ns }
  | .interrupt =>
      some { s with output := s.output ++ clearProgress, outputs := s.outputs ++ [.clear] }

end Root

def step (wsRow : UInt16) (s : Root) (input : Input) : Option Root :=
  if s.ended then none else s.act wsRow input

/-- `TrackedRoot::TrackedRoot` at some time, for a tree of this many bytes and threads that send
it. -/
def start (now : ℕ) (sumTotal : UInt64) (count : ℕ) : Root where
  clock := now
  start := now
  lastDraw := now
  sumTotal := sumTotal
  threads := List.replicate count .outside

section Steps

variable {wsRow : UInt16} {s s' : Root} {input : Input}

/-- Everything a step can do. -/
inductive Event (wsRow : UInt16) (s : Root) : Input → Root → Prop
  /-- A thread goes on, and neither the mutex nor the frames are concerned. -/
  | move {input : Input} {i : ℕ} {pc pc' : Pc} {done : List Bytes → UInt64} {sumDone : UInt64}
      {rows : ℕ} (here : s.threads[i]? = some pc) (held : pc'.held = pc.held)
      (left : pc'.left = pc.left) (read : ∀ now, pc' = .timed now → now = s.clock) :
      Event wsRow s input
        { s.goto i pc' with done := done, sumDone := sumDone, lastDrawnRows := rows }
  | acquire {input : Input} {i : ℕ} (here : s.threads[i]? = some .summed) (free : s.locked = false) :
      Event wsRow s input { s.goto i .locked with locked := true }
  | draw {input : Input} {i now : ℕ} (here : s.threads[i]? = some (.timed now))
      (late : updateInterval ≤ now - s.lastDraw) :
      Event wsRow s input
        { s.goto i (.due (now - s.start)) with lastDraw := now, draws := s.draws ++ [now] }
  | render {input : Input} {i elapsed : ℕ} {root : Node} {frame : Bytes} {rows : ℕ}
      (here : s.threads[i]? = some (.due elapsed))
      (drawn : displayProgress (some wsRow) root s.sumDone s.sumTotal elapsed = some (frame, rows)) :
      Event wsRow s input { s.goto i (.drawing frame rows) with
        outputs := s.outputs ++ [.draw root s.sumDone s.sumTotal elapsed] }
  | throw {input : Input} : Event wsRow s input { s with ended := true }
  | print {input : Input} {i : ℕ} {left : Bytes} {rows : ℕ} (count : ℕ)
      (here : s.threads[i]? = some (.drawing left rows)) :
      Event wsRow s input { s.goto i (.drawing (left.drop count) rows) with
        output := s.output ++ left.take count }
  | release {input : Input} {i : ℕ} (here : s.threads[i]? = some .leaving) :
      Event wsRow s input { s.goto i .outside with locked := false }
  | wait {input : Input} (ns : ℕ) : Event wsRow s input { s with clock := s.clock + ns }
  | interrupt : Event wsRow s .interrupt
      { s with output := s.output ++ clearProgress, outputs := s.outputs ++ [.clear] }

theorem advance_event {i : ℕ} {pc : Pc} (here : s.threads[i]? = some pc)
    (advanced : s.advance i pc = some s') : Event wsRow s input s' := by
  cases pc with
  | counted delta =>
      cases advanced
      exact .move here rfl rfl (by simp)
  | summed =>
      obtain ⟨free, same⟩ := Option.ite_none_left_eq_some.1 advanced
      cases same
      exact .acquire here (Bool.eq_false_iff.2 free)
  | locked =>
      cases advanced
      exact .move here rfl rfl fun now same => (Pc.timed.inj same).symm
  | timed now =>
      simp only [Root.advance] at advanced
      split at advanced
      · rename_i late
        cases advanced
        exact .draw here late
      · cases advanced
        exact .move here rfl rfl (by simp)
  | drawing left rows =>
      cases left with
      | nil =>
          cases advanced
          exact .move here rfl rfl (by simp)
      | cons b left => cases advanced
  | leaving =>
      cases advanced
      exact .release here
  | outside => cases advanced
  | due elapsed => cases advanced

theorem step_event (stepped : step wsRow s input = some s') : Event wsRow s input s' := by
  obtain ⟨-, stepped⟩ := Option.ite_none_left_eq_some.1 stepped
  cases input with
  | tick i node delta =>
      obtain ⟨here, same⟩ := Option.ite_none_right_eq_some.1 stepped
      cases same
      exact .move here rfl rfl (by simp)
  | go i =>
      obtain ⟨pc, here, advanced⟩ := Option.bind_eq_some_iff.1 stepped
      exact advance_event here advanced
  | busy i =>
      obtain ⟨here, same⟩ := Option.ite_none_right_eq_some.1 stepped
      cases same
      exact .move here rfl rfl (by simp)
  | render i root =>
      simp only [Root.act] at stepped
      split at stepped
      · rename_i elapsed here
        split at stepped
        · rename_i frame rows drawn
          cases stepped
          exact .render here drawn
        · cases stepped
          exact .throw
      · cases stepped
  | print i count =>
      simp only [Root.act] at stepped
      split at stepped
      · rename_i left rows here
        cases stepped
        exact .print count here
      · cases stepped
  | wait ns =>
      cases stepped
      exact .wait ns
  | interrupt =>
      cases stepped
      exact .interrupt

end Steps

/-! ## One thread at a time -/

/-- What holds at every moment. -/
structure Holds (s : Root) : Prop where
  holders : total Pc.held s.threads = s.locked.toNat
  past : s.lastDraw ≤ s.clock
  read : ∀ pc ∈ s.threads, ∀ now, pc = .timed now → s.lastDraw ≤ now ∧ now ≤ s.clock
  spaced : (s.start :: s.draws).Pairwise fun first second => first + updateInterval ≤ second
  latest : ∀ time ∈ s.start :: s.draws, time ≤ s.lastDraw
  many : s.start + s.draws.length * updateInterval ≤ s.lastDraw

namespace Holds

variable {wsRow : UInt16} {s s' : Root} {input : Input}

/-- Beside the thread that holds the mutex no other one does. -/
theorem others (holds : Holds s) {i : ℕ} {pc : Pc} (here : s.threads[i]? = some pc)
    (inside : pc.held = 1) (j : ℕ) (pc' : Pc) (apart : j ≠ i) (there : s.threads[j]? = some pc') :
    pc'.held = 0 := by
  have both := add_le_total (f := Pc.held) apart there here
  have all := holds.holders
  have once := s.locked.toNat_le
  omega

/-- A thread that keeps what it holds may go on. -/
theorem goto (holds : Holds s) {i : ℕ} {pc pc' : Pc} (here : s.threads[i]? = some pc)
    (held : pc'.held = pc.held) (read : ∀ now, pc' = .timed now → now = s.clock) :
    Holds (s.goto i pc') := by
  have moved := total_set (f := Pc.held) here pc'
  have holders := holds.holders
  refine ⟨?_, holds.past, ?_, holds.spaced, holds.latest, holds.many⟩
  · show total Pc.held (s.threads.set i pc') = s.locked.toNat
    omega
  · refine forall_mem_set holds.read (fun now same => ?_) i
    rw [read now same]
    exact ⟨holds.past, le_rfl⟩

theorem after_event (holds : Holds s) (event : Event wsRow s input s') : Holds s' := by
  have holders := holds.holders
  cases event with
  | move here held left read =>
      have moved := holds.goto here held read
      exact ⟨moved.holders, moved.past, moved.read, moved.spaced, moved.latest, moved.many⟩
  | @acquire _ i here free =>
      have moved := total_set (f := Pc.held) here .locked
      refine ⟨?_, holds.past, ?_, holds.spaced, holds.latest, holds.many⟩
      · rw [free] at holders
        simp only [Pc.held, Bool.toNat_false] at moved holders
        show total Pc.held (s.threads.set i .locked) = 1
        omega
      · exact forall_mem_set holds.read (by simp) i
  | @draw _ i now here late =>
      have moved := total_set (f := Pc.held) here (.due (now - s.start))
      obtain ⟨after, before⟩ := holds.read _ (List.mem_of_getElem? here) now rfl
      have many := holds.many
      have early : ∀ time ∈ s.start :: s.draws, time + updateInterval ≤ now := by
        intro time among
        have latest := holds.latest time among
        omega
      refine ⟨?_, before, ?_, ?_, ?_, ?_⟩
      · simp only [Pc.held] at moved
        show total Pc.held (s.threads.set i _) = s.locked.toNat
        omega
      · -- Another thread that has read the clock would hold the mutex as well.
        refine forall_mem_set_of_ne (fun j pc apart there time same => ?_) (by simp)
        have free := holds.others here rfl j pc apart there
        rw [same] at free
        cases free
      · rw [← List.cons_append]
        refine List.pairwise_append.2 ⟨holds.spaced, List.pairwise_singleton _ _, ?_⟩
        intro time among last same
        rw [List.mem_singleton.1 same]
        exact early time among
      · rw [← List.cons_append]
        refine List.forall_mem_append.2 ⟨fun time among => ?_, by simp⟩
        have := early time among
        show time ≤ now
        omega
      · show s.start + (s.draws ++ [now]).length * updateInterval ≤ now
        rw [List.length_append, List.length_singleton, Nat.add_mul]
        omega
  | @render _ i elapsed root frame rows here drawn =>
      have moved : Holds (s.goto i (.drawing frame rows)) := holds.goto here rfl (by simp)
      exact ⟨moved.holders, moved.past, moved.read, moved.spaced, moved.latest, moved.many⟩
  | throw => exact ⟨holders, holds.past, holds.read, holds.spaced, holds.latest, holds.many⟩
  | @print _ i left rows count here =>
      have moved : Holds (s.goto i (.drawing (left.drop count) rows)) :=
        holds.goto here rfl (by simp)
      exact ⟨moved.holders, moved.past, moved.read, moved.spaced, moved.latest, moved.many⟩
  | @release _ i here =>
      have moved := total_set (f := Pc.held) here .outside
      have inside := le_total (f := Pc.held) (List.mem_of_getElem? here)
      have once := s.locked.toNat_le
      refine ⟨?_, holds.past, forall_mem_set holds.read (by simp) i, holds.spaced, holds.latest,
        holds.many⟩
      simp only [Pc.held] at moved inside
      show total Pc.held (s.threads.set i .outside) = 0
      omega
  | wait ns =>
      refine ⟨holders, holds.past.trans (Nat.le_add_right _ _), fun pc among now same => ?_,
        holds.spaced, holds.latest, holds.many⟩
      obtain ⟨after, before⟩ := holds.read pc among now same
      exact ⟨after, before.trans (Nat.le_add_right _ _)⟩
  | interrupt => exact ⟨holders, holds.past, holds.read, holds.spaced, holds.latest, holds.many⟩

end Holds

theorem start_holds (now : ℕ) (sumTotal : UInt64) (count : ℕ) : Holds (start now sumTotal count) where
  holders := total_eq_zero fun pc among => by rw [List.eq_of_mem_replicate among]; rfl
  past := le_rfl
  read pc among time same := by
    rw [List.eq_of_mem_replicate among] at same
    cases same
  spaced := List.pairwise_singleton _ _
  latest := by simp [start]
  many := by simp [start]

theorem reachable_holds {wsRow : UInt16} {now count : ℕ} {sumTotal : UInt64} {s : Root}
    (reachable : Reachable (step wsRow) (start now sumTotal count) s) : Holds s :=
  reachable.invariant (start_holds now sumTotal count) fun _ _ _ holds stepped =>
    holds.after_event (step_event stepped)

/-- **The display is drawn at most every 80 ms, by one thread at a time.** The frames are begun that
much after one another and after the start, so the time bounds their number, and no two threads are
between `try_lock` and `unlock`. -/
theorem draws_spaced {wsRow : UInt16} {now count : ℕ} {sumTotal : UInt64} {s : Root}
    (reachable : Reachable (step wsRow) (start now sumTotal count) s) :
    ((s.start :: s.draws).Pairwise fun first second => first + updateInterval ≤ second) ∧
      s.start + s.draws.length * updateInterval ≤ s.clock ∧
      ∀ (i j : ℕ) (pc pc' : Pc), s.threads[i]? = some pc → s.threads[j]? = some pc' →
        pc.held = 1 → pc'.held = 1 → i = j := by
  have holds := reachable_holds reachable
  refine ⟨holds.spaced, holds.many.trans holds.past, fun i j pc pc' first second held held' => ?_⟩
  by_contra apart
  have free := holds.others second held' i pc apart first
  omega

/-- A frame 80 ms after the start, while another thread does not get the mutex. -/
theorem draws_spaced_sample :
    ∃ s, run (step 24) (start 0 7 2) [.tick 0 [] 3, .go 0, .go 0, .wait 80000000, .go 0,
        .tick 1 [] 2, .go 1, .busy 1, .go 0] = some s ∧
      s.threads = [.due 80000000, .outside] ∧ s.draws.length * updateInterval ≤ s.clock := by
  have facts : ∀ s ∈ run (step 24) (start 0 7 2) [.tick 0 [] 3, .go 0, .go 0, .wait 80000000, .go 0,
      .tick 1 [] 2, .go 1, .busy 1, .go 0],
      s.threads = [.due 80000000, .outside] ∧ s.start = 0 := by decide
  obtain ⟨s, reaches⟩ := Option.isSome_iff_exists.1
    (show (run (step 24) (start 0 7 2) [.tick 0 [] 3, .go 0, .go 0, .wait 80000000, .go 0,
      .tick 1 [] 2, .go 1, .busy 1, .go 0]).isSome by decide)
  obtain ⟨threads, since⟩ := facts s reaches
  obtain ⟨-, many, -⟩ := draws_spaced ⟨_, reaches⟩
  rw [since, Nat.zero_add] at many
  exact ⟨s, reaches, threads, many⟩

/-! ## Frames that do not mix -/

namespace Root

/-- What is still to be printed. -/
def left (s : Root) : Bytes := s.threads.flatMap Pc.left

/-- The user does not interrupt in the middle of a frame. -/
def Calm (s : Root) : Input → Prop
  | .interrupt => s.left = []
  | _ => True

theorem left_goto {s : Root} {i : ℕ} {pc pc' : Pc} (here : s.threads[i]? = some pc)
    (same : pc'.left = pc.left) : (s.goto i pc').left = s.left := by
  rw [left, left, goto, List.flatMap_def, List.flatMap_def, map_set_of_eq here same]

end Root

section Frames

variable {wsRow : UInt16} {s s' : Root} {input : Input}

/-- All that is to be printed is with the thread that holds the mutex. -/
theorem Holds.left_eq (holds : Holds s) {i : ℕ} {pc : Pc} (here : s.threads[i]? = some pc)
    (inside : pc.held = 1) : s.left = pc.left :=
  flatMap_eq_of_others here fun j pc' apart there =>
    Pc.left_of_held (holds.others here inside j pc' apart there)

theorem Holds.left_goto (holds : Holds s) {i : ℕ} {pc : Pc} (here : s.threads[i]? = some pc)
    (inside : pc.held = 1) (pc' : Pc) : (s.goto i pc').left = pc'.left := by
  refine flatMap_eq_of_others (i := i) ?_ fun j other apart there => ?_
  · obtain ⟨within, -⟩ := List.getElem?_eq_some_iff.1 here
    exact List.getElem?_set_self within
  · rw [Root.goto, List.getElem?_set_ne apart.symm] at there
    exact Pc.left_of_held (holds.others here inside j other apart there)

/-- What has been printed and what is left are the outputs. -/
theorem prints_after (holds : Holds s) (prints : Prints wsRow s.outputs (s.output ++ s.left))
    (calm : s.Calm input) (event : Event wsRow s input s') :
    Prints wsRow s'.outputs (s'.output ++ s'.left) := by
  cases event with
  | move here held left read =>
      rw [← Root.left_goto here left] at prints
      exact prints
  | @acquire _ i here free =>
      have same : (s.goto i .locked).left = s.left := Root.left_goto here rfl
      rw [← same] at prints
      exact prints
  | @draw _ i now here late =>
      have same : (s.goto i (.due (now - s.start))).left = s.left := Root.left_goto here rfl
      rw [← same] at prints
      exact prints
  | @render _ i elapsed root frame rows here drawn =>
      -- Nothing is left of the frame before, so this one begins where that one ended.
      rw [holds.left_eq here rfl, show (Pc.due elapsed).left = [] from rfl, List.append_nil] at prints
      have bytes : (Output.draw root s.sumDone s.sumTotal elapsed).bytes wsRow = some frame := by
        rw [Output.bytes, drawn, Option.map_some]
      have rest : (s.goto i (.drawing frame rows)).left = frame := holds.left_goto here rfl _
      have next := prints.concat bytes
      rw [← rest] at next
      exact next
  | throw => exact prints
  | @print _ i left rows count here =>
      have rest : (s.goto i (.drawing (left.drop count) rows)).left = left.drop count :=
        holds.left_goto here rfl _
      rw [holds.left_eq here rfl, Pc.left, ← List.take_append_drop count left, ← List.append_assoc,
        ← rest] at prints
      exact prints
  | @release _ i here =>
      have same : (s.goto i .outside).left = s.left := Root.left_goto here rfl
      rw [← same] at prints
      exact prints
  | wait ns => exact prints
  | interrupt =>
      have none_ : s.left = [] := calm
      rw [none_, List.append_nil] at prints
      show Prints wsRow (s.outputs ++ [.clear]) (s.output ++ clearProgress ++ s.left)
      rw [none_, List.append_nil]
      exact prints.concat rfl

end Frames

theorem start_left (now : ℕ) (sumTotal : UInt64) (count : ℕ) :
    (start now sumTotal count).left = [] := by
  refine List.flatMap_eq_nil_iff.2 fun pc among => ?_
  rw [List.eq_of_mem_replicate among]
  rfl

/-- **Frames of different threads take each other's place.** Whenever nothing is left to be printed,
the terminal has the lines that were above the cursor at first and below them the text of the last
frame or clearing, all of it on the screen. -/
theorem ticks_replaced {wsRow : UInt16} {now count : ℕ} {sumTotal : UInt64} {s : Root}
    {inputs : List Input} {t : Terminal} {earlier : List Output} {last : Output}
    (ran : run (step wsRow) (start now sumTotal count) inputs = some s)
    (calm : Along (step wsRow) Root.Calm (start now sumTotal count) inputs) (printed : s.left = [])
    (outputs : s.outputs = earlier ++ [last]) (named : ∀ output ∈ s.outputs, output.Named)
    (narrow : ∀ output ∈ s.outputs, output.Narrow wsRow t.width) (ready : t.Ready)
    (rows : t.height = wsRow.toNat) (more : 2 ≤ t.height) :
    ∃ text, last.text wsRow = some text ∧
      (t.feed s.output).lines = t.above ++ text.splitOn 10 ∧
      (t.feed s.output).row + (text.splitOn 10).length ≤ t.height := by
  have prints : Holds s ∧ Prints wsRow s.outputs (s.output ++ s.left) := by
    refine calm.induction
      (I := fun u => Holds u ∧ Prints wsRow u.outputs (u.output ++ u.left)) ⟨start_holds now sumTotal count, ?_⟩ ?_ ran
    · rw [start_left]
      exact .nil
    · rintro u input u' calm ⟨holds, prints⟩ stepped
      have event := step_event stepped
      exact ⟨holds.after_event event, prints_after holds prints calm event⟩
  obtain ⟨-, prints⟩ := prints
  rw [printed, List.append_nil, outputs] at prints
  rw [outputs] at named narrow
  obtain ⟨u, text, above, shows, result⟩ :=
    run_concat_printed ready rows more named narrow (prints t)
  obtain ⟨-, height, -⟩ := run_printed ready rows more named narrow (prints t)
  refine ⟨text, shows, ?_, ?_⟩
  · rw [result.lines, above]
  · rw [← height]
    exact result.onScreen

/-- A frame that gets to the terminal in two pieces, and the clearing after it. -/
theorem ticks_replaced_sample : ∃ inputs s, run (step 24) (start 0 7 2) inputs = some s ∧
    (Terminal.feed { height := 24, width := 80, above := [utf8 "$ enu user@host"], row := 1 }
      s.output).lines = [utf8 "$ enu user@host", []] := by
  have drawn : (displayProgress (some 24) (smallTree (utf8 "a")) 3 7 80000000).isSome :=
    (displayProgress_isSome _).2 (filled_le (by decide))
  obtain ⟨⟨frame, rows⟩, drawn⟩ := Option.isSome_iff_exists.1 drawn
  obtain ⟨s, ran, calm, printed, outputs⟩ : ∃ s,
      run (step 24) (start 0 7 2) [.tick 0 [] 3, .go 0, .wait 80000000, .go 0, .go 0, .go 0,
        .render 0 (smallTree (utf8 "a")), .print 0 5, .tick 1 [] 4, .print 0 frame.length, .go 0,
        .go 0, .interrupt] = some s ∧
      Along (step 24) Root.Calm (start 0 7 2) [.tick 0 [] 3, .go 0, .wait 80000000, .go 0, .go 0,
        .go 0, .render 0 (smallTree (utf8 "a")), .print 0 5, .tick 1 [] 4, .print 0 frame.length,
        .go 0, .go 0, .interrupt] ∧
      s.left = [] ∧
      s.outputs = [.draw (smallTree (utf8 "a")) 3 7 80000000] ++ [.clear] := by
    have all : (frame.drop 5).drop frame.length = [] := by simp
    simp [run, step, Root.act, start, Root.goto, Root.advance, Along, Root.Calm, Root.left, Pc.left,
      updateInterval, drawn, all]
  have named : ∀ output ∈ s.outputs, output.Named := by
    have letters : Plain (utf8 "r") ∧ Plain (utf8 "a") := by decide
    rw [outputs]
    simp [Output.Named, smallTree, names, namesOf, letters]
  have narrow : ∀ output ∈ s.outputs, output.Narrow 24 80 := by
    rw [outputs]
    decide +kernel
  obtain ⟨text, shows, lines, -⟩ := ticks_replaced ran calm printed outputs named narrow
    (t := { height := 24, width := 80, above := [utf8 "$ enu user@host"], row := 1 })
    ⟨rfl, rfl, by decide⟩ rfl (by decide)
  cases shows
  exact ⟨_, s, ran, lines⟩

end Enuwatch.Tick

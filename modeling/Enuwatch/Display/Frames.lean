import Enuwatch.Display
import Enuwatch.Lib.Terminal
import Enuwatch.Lib.Transition

/-!
# Frames on the terminal

A traversal draws one frame after another. Each begins with an erasure and leaves the cursor above
itself, so that the next one takes its place; `clear_progress` erases the last one, at the end and
whenever the user interrupts.

On a terminal of more than one row that is as wide as the lines of the frames, and with names
without control characters, this works on whichever row the cursor is at first: what stood above it
stays, and below it there is the last frame and nothing else, all of it on the screen
(`frames_replaced`).
In particular nothing is left after the last `clear_progress`. The cursor has to be at the beginning
of a line (`Terminal.Ready`); a line that is wrapped takes more rows than `line_count` counts.
-/

set_option autoImplicit false

namespace Enuwatch.Display

open Enuwatch.Lib Enuwatch.Lib.Terminal Enuwatch.Progress

/-- `clear_progress`. -/
def clearProgress : Bytes := syncOn ++ eraseToEnd ++ syncOff

/-- What is printed in the course of a traversal. -/
inductive Output where
  | draw (root : Node) (sumDone sumTotal : UInt64) (elapsed : ℕ)
  | clear

namespace Output

/-- The bytes, if the call does not throw. -/
def bytes (wsRow : UInt16) : Output → Option Bytes
  | .draw root sumDone sumTotal elapsed =>
      (displayProgress (some wsRow) root sumDone sumTotal elapsed).map (·.1)
  | .clear => some clearProgress

/-- The text that is to be seen. -/
def text (wsRow : UInt16) : Output → Option Bytes
  | .draw root sumDone sumTotal elapsed =>
      (totalStats sumDone sumTotal elapsed).map
        ((visit (termHeight (some wsRow)) true root [] 1 false {}).out ++ ·)
  | .clear => some []

/-- No name contains a control character. -/
def Named : Output → Prop
  | .draw root _ _ _ => ∀ name ∈ names root, Plain name
  | .clear => True

/-- No line is longer than the terminal is wide. -/
def Narrow (wsRow : UInt16) (width : ℕ) (output : Output) : Prop :=
  ∀ text ∈ output.text wsRow, ∀ l ∈ text.splitOn 10, l.length ≤ width

instance (wsRow : UInt16) (width : ℕ) (output : Output) : Decidable (output.Narrow wsRow width) :=
  inferInstanceAs (Decidable (∀ text ∈ output.text wsRow, ∀ l ∈ text.splitOn 10, l.length ≤ width))

end Output

/-- One output on the terminal. -/
def print (wsRow : UInt16) (t : Terminal) (output : Output) : Option Terminal :=
  (output.bytes wsRow).map t.feed

/-! ## The lines of a frame -/

/-- From `s` to `s'` these lines were written. -/
structure Written (s : Screen) (ls : List Bytes) (s' : Screen) : Prop where
  out : s'.out = s.out ++ block ls
  count : s'.lineCount = s.lineCount + ls.length
  plain : ∀ l ∈ ls, Plain l

section Lines

variable {s s' s'' : Screen} {maxRows : ℕ}

theorem Written.refl (s : Screen) : Written s [] s := ⟨by simp [block], rfl, by simp⟩

theorem Written.trans {first second : List Bytes} (one : Written s first s')
    (other : Written s' second s'') : Written s (first ++ second) s'' where
  out := by rw [other.out, one.out, List.append_assoc, block, block, block, List.flatMap_append]
  count := by rw [other.count, one.count, List.length_append, Nat.add_assoc]
  plain := List.forall_mem_append.2 ⟨one.plain, other.plain⟩

theorem plain_scaleFrom (bytes : ℚ) {available : List Bytes}
    (plain : ∀ unit ∈ available, Plain unit) : Plain (scaleFrom bytes available).2 := by
  fun_induction scaleFrom bytes available with
  | case1 bytes unit next larger big ih => exact ih fun other among => plain other (.tail _ among)
  | case2 bytes unit next larger small => exact plain unit List.mem_cons_self
  | case3 bytes unit => exact plain unit List.mem_cons_self
  | case4 bytes => exact List.forall_mem_nil _

@[simp] theorem plain_scale (bytes : ℚ) : Plain (scale bytes).2 :=
  plain_scaleFrom bytes (by decide)

theorem plain_spinner (i : ℕ) : Plain (spinner[i]?.getD []) := by
  have plain : ∀ sym ∈ spinner, Plain sym := by decide
  cases found : spinner[i]? with
  | none => exact List.forall_mem_nil _
  | some sym => exact plain sym (List.mem_of_getElem? found)

theorem nodeStats_eq (done total : UInt64) :
    ∃ stats, nodeStats done total = stats ++ [10] ∧ Plain stats := by
  have texts : Plain (utf8 "[") ∧ Plain (utf8 "% ") ∧ Plain (utf8 "]") := by decide
  have last : utf8 "]\n" = utf8 "]" ++ [10] := by decide
  unfold nodeStats
  split
  · exact ⟨[], by decide, List.forall_mem_nil _⟩
  · rw [last, ← List.append_assoc]
    refine ⟨_, rfl, ?_⟩
    simp [texts]

theorem totalStats_eq {done total : UInt64} {elapsed : ℕ} {stats : Bytes}
    (drawn : totalStats done total elapsed = some stats) :
    ∃ line, stats = line ++ [10] ∧ Plain line := by
  have texts : Plain (utf8 "[") ∧ Plain (utf8 "] [") ∧ Plain (utf8 "% ") ∧ Plain (utf8 " ") ∧
      Plain (utf8 "/s ] ") := by decide
  have bar : ∀ count, Plain (List.replicate count 61) := plain_replicate (by decide)
  have last : utf8 "\n" = [10] := by decide
  unfold totalStats at drawn
  obtain ⟨-, same⟩ := Option.ite_none_right_eq_some.1 drawn
  rw [← Option.some.inj same, last]
  refine ⟨_, rfl, ?_⟩
  simp [texts, bar, plain_spinner]

/-- The line of a node. -/
theorem written_line {p name : Bytes} (before : Plain p) (named : Plain name) (pLen : ℕ)
    (done total : UInt64) : ∃ l, Written s [l] (s.line p pLen name done total) := by
  obtain ⟨stats, same, plain⟩ := nodeStats_eq done total
  simp only [Screen.line, same]
  generalize gap : (if colStart ≤ pLen + name.length then blanks 1
    else blanks (colStart - (pLen + name.length))) = blank
  have blank_plain : Plain blank := by
    rw [← gap]
    split <;> simp
  refine ⟨p ++ name ++ blank ++ stats, ?_, rfl, ?_⟩
  · simp [block]
  · simp [before, named, blank_plain, plain]

mutual

theorem written_visit (isRoot : Bool) (node : Node) (named : ∀ name ∈ names node, Plain name)
    {p : Bytes} (plain : Plain p) (pLen : ℕ) (last : Bool) (s : Screen) :
    ∃ ls, Written s ls (visit maxRows isRoot node p pLen last s) := by
  obtain ⟨name, done, total, children⟩ := node
  obtain ⟨own, named⟩ := List.forall_mem_cons.1 named
  rw [visit]
  split
  · exact ⟨[], .refl s⟩
  · split
    · obtain ⟨l, line⟩ := written_line (s := s) plain own pLen done total
      obtain ⟨ls, rest⟩ := written_visitChildren children named plain pLen 0 children.length
        (s.line p pLen name done total)
      exact ⟨_, line.trans rest⟩
    · have branch_plain : Plain (branch last) := by cases last <;> decide
      have trunk_plain : Plain (trunk last) := by cases last <;> decide
      obtain ⟨l, line⟩ := written_line (s := s) (plain_append.2 ⟨plain, branch_plain⟩) own (pLen + 3)
        done total
      obtain ⟨ls, rest⟩ := written_visitChildren children named (plain_append.2 ⟨plain, trunk_plain⟩)
        (pLen + 3) 0 children.length (s.line (p ++ branch last) (pLen + 3) name done total)
      exact ⟨_, line.trans rest⟩

theorem written_visitChildren (children : List Node)
    (named : ∀ name ∈ namesOf children, Plain name) {p : Bytes} (plain : Plain p) (pLen : ℕ)
    (idx count : ℕ) (s : Screen) :
    ∃ ls, Written s ls (visitChildren maxRows children p pLen idx count s) := by
  cases children with
  | nil => exact ⟨[], .refl s⟩
  | cons child others =>
      obtain ⟨own, named⟩ := List.forall_mem_append.1 named
      obtain ⟨first, one⟩ := written_visit false child own plain pLen (idx + 1 = count) s
      obtain ⟨second, rest⟩ := written_visitChildren others named plain pLen (idx + 1) count
        (visit maxRows false child p pLen (idx + 1 = count) s)
      rw [visitChildren]
      exact ⟨_, one.trans rest⟩

end

end Lines

/-! ## One output -/

section Print

variable {wsRow : UInt16} {t t' : Terminal}

theorem feed_sync (mode : t.mode = .text) : t.feed syncOn = t ∧ t.feed syncOff = t := by
  have on : syncOn = 27 :: 91 :: [63, 50, 48, 50, 54] ++ [104] := by decide
  have off : syncOff = 27 :: 91 :: [63, 50, 48, 50, 54] ++ [108] := by decide
  have params : ∀ b ∈ ([63, 50, 48, 50, 54] : Bytes), b < 64 := by simp
  rw [on, off, feed_control mode params (by decide), feed_control mode params (by decide)]
  exact ⟨rfl, rfl⟩

/-- A frame is a block of lines, and the screen has rows for it. -/
theorem displayProgress_block {root : Node} {sumDone sumTotal : UInt64} {elapsed : ℕ} {frame : Bytes}
    {lineCount : ℕ} (more : 2 ≤ wsRow.toNat) (named : ∀ name ∈ names root, Plain name)
    (printed : displayProgress (some wsRow) root sumDone sumTotal elapsed =
      some (frame, lineCount)) :
    ∃ ls, (Output.draw root sumDone sumTotal elapsed).text wsRow = some (block ls) ∧
      frame = syncOn ++ (eraseSequence ++ block ls ++ upSequence ls.length) ++ syncOff ∧
      (∀ l ∈ ls, Plain l) ∧ ls ≠ [] ∧ ls.length ≤ wsRow.toNat - 1 := by
  have reported : wsRow ≠ 0 := by
    rintro rfl
    exact absurd more (by decide)
  obtain ⟨shown_count, -, -⟩ := displayProgress_spec printed
  have height : termHeight (some wsRow) = wsRow.toNat - 1 := if_pos reported
  have few : (shownNames wsRow root).length ≤ wsRow.toNat - 2 := by
    rw [shownNames, shown, height, if_neg (by omega)]
    exact (List.length_take_le _ _).trans (by omega)
  obtain ⟨nodes, written⟩ : ∃ ls, Written {} ls (visit (termHeight (some wsRow)) true root [] 1 false
      {}) :=
    written_visit true root named (List.forall_mem_nil _) 1 false {}
  simp only [displayProgress] at printed
  split at printed
  · cases printed
  · rename_i stats drawn
    obtain ⟨line, rfl, plain⟩ := totalStats_eq drawn
    cases printed
    have text : (visit (termHeight (some wsRow)) true root [] 1 false {}).out ++ (line ++ [10]) =
        block (nodes ++ [line]) := by
      rw [written.out]
      simp [block]
    have count : (visit (termHeight (some wsRow)) true root [] 1 false {}).lineCount + 1 =
        (nodes ++ [line]).length := by
      rw [written.count, List.length_append]
      simp
    refine ⟨nodes ++ [line], ?_, ?_, ?_, by simp, ?_⟩
    · rw [Output.text, drawn, Option.map_some, text]
    · rw [text, count, upSequence, eraseToEnd, eraseSequence]
      simp only [List.append_assoc]
    · exact List.forall_mem_append.2 ⟨written.plain, by simpa using plain⟩
    · omega

/-- What an output makes of a terminal. -/
structure Printed (t : Terminal) (text : Bytes) (t' : Terminal) : Prop where
  ready : t'.Ready
  height : t'.height = t.height
  width : t'.width = t.width
  above : t'.above = t.above
  lines : t'.lines = t.above ++ text.splitOn 10
  /-- All of it is on the screen. -/
  onScreen : t'.row + (text.splitOn 10).length ≤ t'.height

theorem print_printed (ready : t.Ready) (rows : t.height = wsRow.toNat) (more : 2 ≤ t.height)
    {output : Output} (named : output.Named) (narrow : output.Narrow wsRow t.width)
    (printed : print wsRow t output = some t') :
    ∃ text, output.text wsRow = some text ∧ Printed t text t' := by
  obtain ⟨bytes, has, rfl⟩ := Option.map_eq_some_iff.1 printed
  obtain ⟨on, off⟩ := feed_sync ready.mode
  have row := ready.row
  cases output with
  | clear =>
      cases has
      have erased : t.erase = { t with line := [], below := [] } := by simp [erase, ready.col]
      have fed : t.feed clearProgress = { t with line := [], below := [] } := by
        rw [clearProgress, feed_append, feed_append, on,
          show eraseToEnd = eraseSequence from rfl, feed_erase ready.mode, erased]
        exact (feed_sync (t := { t with line := [], below := [] }) ready.mode).2
      rw [fed]
      have empty : ([] : Bytes).splitOn 10 = [[]] := by decide
      refine ⟨[], rfl, ⟨ready.mode, ready.col, ready.row⟩, rfl, rfl, rfl, by rw [empty]; rfl, ?_⟩
      rw [empty]
      show t.row + 1 ≤ t.height
      omega
  | draw root sumDone sumTotal elapsed =>
      obtain ⟨⟨frame, lineCount⟩, drawn, rfl⟩ := Option.map_eq_some_iff.1 has
      obtain ⟨ls, text, rfl, plain, some_, few⟩ := displayProgress_block (by omega) named drawn
      have short : ∀ l ∈ ls, l.length ≤ t.width := by
        have all := narrow _ text
        rw [splitOn_block plain] at all
        exact (List.forall_mem_append.1 all).1
      have fed := feed_block ready plain short some_ (by omega)
      refine ⟨block ls, text, ?_⟩
      rw [feed_append, feed_append, on, fed]
      rw [(feed_sync (t := { t with
        row := min (t.row + ls.length) (t.height - 1) - ls.length
        line := ls.headD [], below := ls.tail ++ [[]] }) ready.mode).2]
      obtain ⟨l, rest, rfl⟩ := List.exists_cons_of_ne_nil some_
      refine ⟨⟨ready.mode, ready.col, ?_⟩, rfl, rfl, rfl, ?_, ?_⟩
      · show min (t.row + _) (t.height - 1) - _ ≤ t.height - 1
        omega
      · rw [splitOn_block plain]
        rfl
      · rw [splitOn_block plain, List.length_append, List.length_singleton]
        show min (t.row + (l :: rest).length) (t.height - 1) - (l :: rest).length + _ ≤ t.height
        omega

end Print

/-! ## Any number of them -/

section Runs

variable {wsRow : UInt16} {t t' : Terminal} {outputs : List Output}

/-- Outputs leave the terminal ready for the next one, with the lines above as they were. -/
theorem run_printed (ready : t.Ready) (rows : t.height = wsRow.toNat) (more : 2 ≤ t.height)
    (named : ∀ output ∈ outputs, output.Named)
    (narrow : ∀ output ∈ outputs, output.Narrow wsRow t.width)
    (ran : run (print wsRow) t outputs = some t') :
    t'.Ready ∧ t'.height = t.height ∧ t'.width = t.width ∧ t'.above = t.above := by
  refine run_induction
    (P := fun u => u.Ready ∧ u.height = t.height ∧ u.width = t.width ∧ u.above = t.above)
    ⟨ready, rfl, rfl, rfl⟩ ?_ ran
  rintro u output u' among ⟨ready, height, width, above⟩ printed
  obtain ⟨text, -, result⟩ := print_printed ready (height.trans rows) (height ▸ more)
    (named output among) (width ▸ narrow output among) printed
  exact ⟨result.ready, result.height.trans height, result.width.trans width,
    result.above.trans above⟩

/-- The last of some outputs meets such a terminal. -/
theorem run_concat_printed {last : Output} (ready : t.Ready) (rows : t.height = wsRow.toNat)
    (more : 2 ≤ t.height) (named : ∀ output ∈ outputs ++ [last], output.Named)
    (narrow : ∀ output ∈ outputs ++ [last], output.Narrow wsRow t.width)
    (ran : run (print wsRow) t (outputs ++ [last]) = some t') :
    ∃ u text, u.above = t.above ∧ last.text wsRow = some text ∧ Printed u text t' := by
  rw [run_append, Option.bind_eq_some_iff] at ran
  obtain ⟨before, ran, printed⟩ := ran
  obtain ⟨named, own⟩ := List.forall_mem_append.1 named
  obtain ⟨narrow, short⟩ := List.forall_mem_append.1 narrow
  obtain ⟨ready, height, width, above⟩ := run_printed ready rows more named narrow ran
  rw [run_cons, Option.bind_eq_some_iff] at printed
  obtain ⟨u, printed, same⟩ := printed
  cases same
  obtain ⟨text, shows, result⟩ := print_printed ready (height.trans rows) (height ▸ more)
    (own last List.mem_cons_self) (width ▸ short last List.mem_cons_self) printed
  exact ⟨before, text, above, shows, result⟩

/-- These are the bytes of the outputs, one after the other. -/
def Prints (wsRow : UInt16) (outputs : List Output) (bytes : Bytes) : Prop :=
  ∀ t, run (print wsRow) t outputs = some (t.feed bytes)

theorem Prints.nil : Prints wsRow [] [] := fun _ => rfl

theorem Prints.concat {bytes more : Bytes} (prints : Prints wsRow outputs bytes) {output : Output}
    (next : output.bytes wsRow = some more) : Prints wsRow (outputs ++ [output]) (bytes ++ more) := by
  intro t
  rw [run_append_of_eq (prints t), run_cons, print, next, feed_append]
  rfl

end Runs

/-- **Frames take each other's place.** After any number of frames and clearings, the lines that
were above the cursor at first are still there, and below them there is the text of the last output
and nothing else, all of it on the screen. -/
theorem frames_replaced {wsRow : UInt16} {t t' : Terminal} {earlier : List Output} {last : Output}
    (ready : t.Ready) (rows : t.height = wsRow.toNat) (more : 2 ≤ t.height)
    (named : ∀ output ∈ earlier ++ [last], output.Named)
    (narrow : ∀ output ∈ earlier ++ [last], output.Narrow wsRow t.width)
    (ran : run (print wsRow) t (earlier ++ [last]) = some t') :
    ∃ text, last.text wsRow = some text ∧ t'.lines = t.above ++ text.splitOn 10 ∧
      t'.row + (text.splitOn 10).length ≤ t'.height := by
  obtain ⟨u, text, above, shows, result⟩ := run_concat_printed ready rows more named narrow ran
  refine ⟨text, shows, ?_, result.onScreen⟩
  rw [result.lines, above]

/-- Two frames and the clearing after them, in the middle of the screen. -/
theorem frames_replaced_sample : ∃ t',
    run (print 24) { height := 24, width := 80, above := [utf8 "$ enu user@host"], row := 1 }
      [.draw (smallTree (utf8 "a")) 0 7 0, .draw (smallTree (utf8 "b")) 0 7 0, .clear] = some t' ∧
      t'.lines = [utf8 "$ enu user@host", []] := by
  have drawn : ∀ name, ∃ bytes,
      (Output.draw (smallTree name) 0 7 0).bytes 24 = some bytes := by
    intro name
    rw [Output.bytes, ← Option.isSome_iff_exists, Option.isSome_map]
    exact (displayProgress_isSome _).2 filled_start
  obtain ⟨first, has⟩ := drawn (utf8 "a")
  obtain ⟨second, has'⟩ := drawn (utf8 "b")
  obtain ⟨t', ran⟩ : ∃ t', run (print 24)
      { height := 24, width := 80, above := [utf8 "$ enu user@host"], row := 1 }
      ([.draw (smallTree (utf8 "a")) 0 7 0, .draw (smallTree (utf8 "b")) 0 7 0] ++ [.clear]) =
        some t' := by
    simp only [List.cons_append, List.nil_append, run_cons, print, has, has', Option.map_some,
      Option.bind_some]
    exact ⟨_, rfl⟩
  have named : ∀ output ∈ [Output.draw (smallTree (utf8 "a")) 0 7 0,
      .draw (smallTree (utf8 "b")) 0 7 0] ++ [.clear], output.Named := by
    have letters : Plain (utf8 "r") ∧ Plain (utf8 "a") ∧ Plain (utf8 "b") := by decide
    simp [Output.Named, smallTree, names, namesOf, letters]
  have narrow : ∀ output ∈ [Output.draw (smallTree (utf8 "a")) 0 7 0,
      .draw (smallTree (utf8 "b")) 0 7 0] ++ [.clear], output.Narrow 24 80 := by decide +kernel
  obtain ⟨text, shows, lines, -⟩ :=
    frames_replaced ⟨rfl, rfl, by decide⟩ rfl (by decide) named narrow ran
  cases shows
  exact ⟨t', ran, lines⟩

end Enuwatch.Display

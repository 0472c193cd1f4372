import Enuwatch.Lib.Text
import Enuwatch.Progress
import Enuwatch.Tracked

/-!
# The progress frame

`display_progress` draws the tree of nodes, one line for each node in preorder, until the terminal
is full, and then a line for the whole. It moves the cursor back up by the lines it has counted, so
that the next frame is drawn over this one.

The count is that of the newlines unless a name that is shown contains one, and it is below the
height of the terminal unless the terminal has a single row. `frame_fits_iff` says that these are
the only exceptions.
-/

set_option autoImplicit false

namespace Enuwatch.Display

open Enuwatch.Lib Enuwatch.Progress

/-! ## Texts -/

/-- `SYNC_ON`. -/
def syncOn : Bytes := utf8 "\x1b[?2026h"

/-- `SYNC_OFF`. -/
def syncOff : Bytes := utf8 "\x1b[?2026l"

/-- `ERASE_TO_END`. -/
def eraseToEnd : Bytes := utf8 "\x1b[J"

/-- `COL_START`. -/
def colStart : ℕ := 58

/-- `term_height`, for the number of rows that the `ioctl` reports, if it succeeds. -/
def termHeight : Option UInt16 → ℕ
  | some wsRow => if wsRow ≠ 0 then wsRow.toNat - 1 else 23
  | none => 23

/-- `UNITS`: the array has one more element than it has names. -/
def units : List Bytes := [utf8 "B", utf8 "KiB", utf8 "MiB", utf8 "GiB", utf8 ""]

/-- The loop of `scale`, at the unit in front. Dividing a `double` by 1024 is exact. -/
def scaleFrom : ℚ → List Bytes → ℚ × Bytes
  | bytes, unit :: next :: larger =>
      if 1024 ≤ bytes then scaleFrom (bytes / 1024) (next :: larger) else (bytes, unit)
  | bytes, [unit] => (bytes, unit)
  | bytes, [] => (bytes, [])

def scale (bytes : ℚ) : ℚ × Bytes := scaleFrom bytes units

/-- The symbols of the spinner. -/
def spinner : List Bytes :=
  [utf8 "⠋", utf8 "⠙", utf8 "⠹", utf8 "⠸", utf8 "⠼", utf8 "⠴", utf8 "⠦", utf8 "⠧", utf8 "⠇",
    utf8 "⠏"]

/-- `chrono::duration<double>` of a number of nanoseconds. -/
def seconds (elapsed : ℕ) : ℚ := toDouble (toDouble elapsed / 10 ^ 9)

/-- `total_stats`. A bar that is more than full asks for a string of almost `2 ^ 64` blanks, which
throws. -/
def totalStats (done total : UInt64) (elapsed : ℕ) : Option Bytes :=
  let elapsedS := seconds elapsed
  let amount := scale (toDouble done.toNat)
  let speed := scale (if 0 < elapsedS then toDouble (toDouble done.toNat / elapsedS) else 0)
  let selector := ⌊toDouble (elapsedS * 8)⌋₊
  let sym := spinner[selector % 10]?.getD []
  if filled done total ≤ barWidth then
    some (utf8 "[" ++ List.replicate (filled done total) 61 ++
      blanks (barWidth - filled done total) ++ utf8 "] [" ++
      padLeft 5 (fixed 1 (min 100 (toDouble (ratio done total * 100)))) ++ utf8 "% " ++
      padLeft 5 (fixed 1 amount.1) ++ utf8 " " ++ amount.2 ++ utf8 " " ++
      padLeft 5 (fixed 1 speed.1) ++ utf8 " " ++ speed.2 ++ utf8 "/s ] " ++ sym ++ utf8 "\n")
  else none

/-- `node_stats`. -/
def nodeStats (done total : UInt64) : Bytes :=
  if total = 0 then utf8 "\n"
  else
    let pct := toDouble (toDouble (100 * toDouble done.toNat) / toDouble total.toNat)
    let amount := scale (toDouble done.toNat)
    let digits := if done < 1024 then 0 else 1
    utf8 "[" ++ padLeft 5 (fixed 1 pct) ++ utf8 "% " ++ padLeft 5 (fixed digits amount.1) ++
      padRight 3 amount.2 ++ utf8 "]\n"

/-! ## The frame -/

/-- A node of the tree with what the display reads of it. -/
inductive Node where
  | mk (name : Bytes) (done total : UInt64) (children : List Node)

/-- `out` and `line_count`. -/
structure Screen where
  out : Bytes := []
  lineCount : ℕ := 0
deriving DecidableEq, Repr

/-- The line of a node, after the text `p` that `pLen` stands for. -/
def Screen.line (s : Screen) (p : Bytes) (pLen : ℕ) (name : Bytes) (done total : UInt64) : Screen :=
  let width := pLen + name.length
  let gap := if colStart ≤ width then blanks 1 else blanks (colStart - width)
  ⟨s.out ++ p ++ name ++ gap ++ nodeStats done total, s.lineCount + 1⟩

/-- What stands before the name of a node that is not the root. -/
def branch (last : Bool) : Bytes := if last then utf8 "└─ " else utf8 "├─ "

/-- What stands in its column on the lines below. -/
def trunk (last : Bool) : Bytes := if last then utf8 "   " else utf8 "│  "

mutual

/-- The lambda `visit`, for a node that is the root or not. -/
def visit (maxRows : ℕ) (isRoot : Bool) :
    Node → (p : Bytes) → (pLen : ℕ) → (last : Bool) → Screen → Screen
  | .mk name done total children, p, pLen, last, s =>
      if s.lineCount + 1 = maxRows then s
      else if isRoot then
        visitChildren maxRows children p pLen 0 children.length (s.line p pLen name done total)
      else
        visitChildren maxRows children (p ++ trunk last) (pLen + 3) 0 children.length
          (s.line (p ++ branch last) (pLen + 3) name done total)

/-- The calls of `visit` for the children, with the number of those before. -/
def visitChildren (maxRows : ℕ) :
    List Node → (p : Bytes) → (pLen : ℕ) → (idx count : ℕ) → Screen → Screen
  | [], _, _, _, _, s => s
  | child :: others, p, pLen, idx, count, s =>
      visitChildren maxRows others p pLen (idx + 1) count
        (visit maxRows false child p pLen (idx + 1 = count) s)

end

/-- `display_progress`: what it prints, and the lines it returns. The first call of `visit` gets
`true` for `p_len` and `0` for `last`. -/
def displayProgress (wsRow : Option UInt16) (root : Node) (sumDone sumTotal : UInt64)
    (elapsed : ℕ) : Option (Bytes × ℕ) :=
  let s := visit (termHeight wsRow) true root [] 1 false {}
  match totalStats sumDone sumTotal elapsed with
  | none => none
  | some stats =>
      let lineCount := s.lineCount + 1
      some (syncOn ++ eraseToEnd ++ (s.out ++ stats) ++
        (utf8 "\x1b[" ++ decimal lineCount ++ utf8 "A") ++ syncOff, lineCount)

/-! ## Lines -/

mutual

/-- The names of a tree, in the order in which they are drawn. -/
def names : Node → List Bytes
  | .mk name _ _ children => name :: namesOf children

def namesOf : List Node → List Bytes
  | [] => []
  | child :: others => names child ++ namesOf others

end

/-- The names for which there are rows, when some lines are drawn. -/
def shown (maxRows lineCount : ℕ) (all : List Bytes) : List Bytes :=
  if maxRows = 0 then all else all.take (maxRows - 1 - lineCount)

/-- The frame fits a terminal: as many newlines as lines were counted, the cursor goes up by that
count, and there are rows for them. -/
structure FrameFits (wsRow : UInt16) (frame : Bytes) (lineCount : ℕ) : Prop where
  counted : newlines frame = lineCount
  moves : utf8 "\x1b[" ++ decimal lineCount ++ utf8 "A" ++ syncOff <:+ frame
  fits : lineCount ≤ wsRow.toNat

section Lines

theorem newlines_units : ∀ unit ∈ units, newlines unit = 0 := by decide

theorem newlines_scaleFrom (bytes : ℚ) {available : List Bytes}
    (plain : ∀ unit ∈ available, newlines unit = 0) :
    newlines (scaleFrom bytes available).2 = 0 := by
  fun_induction scaleFrom bytes available with
  | case1 bytes unit next larger big ih => exact ih fun other among => plain other (.tail _ among)
  | case2 bytes unit next larger small => exact plain unit List.mem_cons_self
  | case3 bytes unit => exact plain unit List.mem_cons_self
  | case4 bytes => rfl

@[simp] theorem newlines_scale (bytes : ℚ) : newlines (scale bytes).2 = 0 :=
  newlines_scaleFrom bytes newlines_units

theorem newlines_spinner (i : ℕ) : newlines (spinner[i]?.getD []) = 0 := by
  have plain : ∀ sym ∈ spinner, newlines sym = 0 := by decide
  cases found : spinner[i]? with
  | none => rfl
  | some sym => exact plain sym (List.mem_of_getElem? found)

/-- The line of a node ends in its only newline. -/
theorem newlines_nodeStats (done total : UInt64) : newlines (nodeStats done total) = 1 := by
  have texts : newlines (utf8 "[") = 0 ∧ newlines (utf8 "% ") = 0 ∧ newlines (utf8 "]\n") = 1 := by
    decide
  unfold nodeStats
  split
  · decide
  · simp [texts]

theorem newlines_totalStats {done total : UInt64} {elapsed : ℕ} {stats : Bytes}
    (drawn : totalStats done total elapsed = some stats) : newlines stats = 1 := by
  have texts : newlines (utf8 "[") = 0 ∧ newlines (utf8 "] [") = 0 ∧ newlines (utf8 "% ") = 0 ∧
      newlines (utf8 " ") = 0 ∧ newlines (utf8 "/s ] ") = 0 ∧ newlines (utf8 "\n") = 1 := by decide
  have bar : (61 : UInt8) ≠ 10 := by decide
  unfold totalStats at drawn
  obtain ⟨-, same⟩ := Option.ite_none_right_eq_some.1 drawn
  rw [← Option.some.inj same]
  simp [texts, newlines_replicate bar, newlines_spinner]

/-- Something is drawn as long as the bar is not more than full. -/
theorem totalStats_isSome {done total : UInt64} (elapsed : ℕ) :
    (totalStats done total elapsed).isSome ↔ filled done total ≤ barWidth := by
  unfold totalStats
  split <;> simp [*]

theorem newlines_branch (last : Bool) : newlines (branch last) = 0 := by
  cases last <;> decide

theorem newlines_trunk (last : Bool) : newlines (trunk last) = 0 := by
  cases last <;> decide

end Lines

/-! ## All lines -/

/-- From `s` to `s'` a line was drawn for each of these names. -/
structure Drawn (s : Screen) (lines : List Bytes) (s' : Screen) : Prop where
  count : s'.lineCount = s.lineCount + lines.length
  newlines : newlines s'.out = newlines s.out + lines.length + newlines lines.flatten

section Visits

variable {s s' s'' : Screen} {maxRows : ℕ}

theorem Drawn.refl (s : Screen) : Drawn s [] s := ⟨rfl, rfl⟩

theorem Drawn.trans {first second : List Bytes} (one : Drawn s first s')
    (other : Drawn s' second s'') : Drawn s (first ++ second) s'' := by
  obtain ⟨count, newlines⟩ := one
  obtain ⟨count', newlines'⟩ := other
  constructor
  · rw [count', count, List.length_append, Nat.add_assoc]
  · rw [newlines', newlines, List.flatten_append, newlines_append, List.length_append]
    omega

theorem drawn_line {p : Bytes} (plain : newlines p = 0) (pLen : ℕ) (name : Bytes)
    (done total : UInt64) : Drawn s [name] (s.line p pLen name done total) := by
  refine ⟨rfl, ?_⟩
  simp only [Screen.line, newlines_append, plain, newlines_nodeStats, List.length_singleton,
    List.flatten_singleton]
  split <;> simp <;> omega

/-- There is still a row for the last line. -/
def Room (maxRows : ℕ) (s : Screen) : Prop := maxRows = 0 ∨ s.lineCount + 1 ≤ maxRows

theorem shown_append {lineCount : ℕ} (first second : List Bytes) :
    shown maxRows lineCount (first ++ second) = shown maxRows lineCount first ++
      shown maxRows (lineCount + (shown maxRows lineCount first).length) second := by
  unfold shown
  split
  · rfl
  · rw [List.take_append, List.length_take]
    congr 2
    omega

theorem Drawn.room (all : List Bytes) (drawn : Drawn s (shown maxRows s.lineCount all) s')
    (room : Room maxRows s) : Room maxRows s' := by
  rcases room with unbounded | room
  · exact .inl unbounded
  · refine .inr ?_
    rw [drawn.count, shown, if_neg (by omega), List.length_take]
    omega

mutual

/-- A visit draws the names below its node as far as there are rows. -/
theorem drawn_visit (isRoot : Bool) (node : Node) {p : Bytes} (plain : newlines p = 0) (pLen : ℕ)
    (last : Bool) (s : Screen) (room : Room maxRows s) :
    Drawn s (shown maxRows s.lineCount (names node)) (visit maxRows isRoot node p pLen last s) := by
  obtain ⟨name, done, total, children⟩ := node
  rw [visit, names]
  split
  · rename_i full
    have none_ : shown maxRows s.lineCount (name :: namesOf children) = [] := by
      rw [shown, if_neg (by omega)]
      simp [← full]
    rw [none_]
    exact .refl s
  · rename_i more
    have own : shown maxRows s.lineCount [name] = [name] := by
      unfold shown
      split
      · rfl
      · rename_i bounded
        have least : 1 ≤ maxRows - 1 - s.lineCount := by
          rcases room with unbounded | room
          · exact absurd unbounded bounded
          · omega
        exact List.take_of_length_le least
    have below : shown maxRows s.lineCount (name :: namesOf children) =
        [name] ++ shown maxRows (s.lineCount + 1) (namesOf children) := by
      rw [← List.singleton_append, shown_append, own]
      rfl
    -- The line of the node, and then those of its children.
    have both : ∀ (before after : Bytes) (length length' : ℕ), newlines before = 0 →
        newlines after = 0 → Drawn s ([name] ++ shown maxRows (s.lineCount + 1) (namesOf children))
          (visitChildren maxRows children after length' 0 children.length
            (s.line before length name done total)) := by
      intro before after length length' plain plain'
      have line := drawn_line (s := s) plain length name done total
      have room' : Room maxRows (s.line before length name done total) :=
        Drawn.room [name] (by rw [own]; exact line) room
      exact line.trans (drawn_visitChildren children plain' length' 0 children.length _ room')
    rw [below]
    split
    · exact both p p pLen pLen plain plain
    · refine both _ _ _ _ ?_ ?_
      · rw [newlines_append, plain, newlines_branch]
      · rw [newlines_append, plain, newlines_trunk]

theorem drawn_visitChildren (children : List Node) {p : Bytes} (plain : newlines p = 0) (pLen : ℕ)
    (idx count : ℕ) (s : Screen) (room : Room maxRows s) :
    Drawn s (shown maxRows s.lineCount (namesOf children))
      (visitChildren maxRows children p pLen idx count s) := by
  cases children with
  | nil =>
      rw [visitChildren, namesOf]
      have none_ : shown maxRows s.lineCount [] = [] := by simp [shown]
      rw [none_]
      exact .refl s
  | cons child others =>
      rw [visitChildren, namesOf, shown_append]
      have first := drawn_visit false child plain pLen (idx + 1 = count) s room
      rw [← first.count]
      exact first.trans
        (drawn_visitChildren others plain pLen (idx + 1) count _ (first.room _ room))

end

end Visits

/-! ## The whole frame -/

section Frame

variable {wsRow : UInt16} {root : Node} {sumDone sumTotal : UInt64} {elapsed : ℕ}
  {frame : Bytes} {lineCount : ℕ}

/-- The names that a frame shows. -/
def shownNames (wsRow : UInt16) (root : Node) : List Bytes :=
  shown (termHeight (some wsRow)) 0 (names root)

/-- A frame has a line for each name it shows and one for the whole. -/
theorem displayProgress_spec
    (printed : displayProgress (some wsRow) root sumDone sumTotal elapsed =
      some (frame, lineCount)) :
    lineCount = (shownNames wsRow root).length + 1 ∧
      newlines frame = lineCount + newlines (shownNames wsRow root).flatten ∧
      utf8 "\x1b[" ++ decimal lineCount ++ utf8 "A" ++ syncOff <:+ frame := by
  have room : Room (termHeight (some wsRow)) {} := Nat.eq_zero_or_pos _
  have drawn : Drawn {} (shownNames wsRow root)
      (visit (termHeight (some wsRow)) true root [] 1 false {}) :=
    drawn_visit true root rfl 1 false {} room
  have texts : newlines syncOn = 0 ∧ newlines eraseToEnd = 0 ∧ newlines (utf8 "\x1b[") = 0 ∧
      newlines (utf8 "A") = 0 ∧ newlines syncOff = 0 := by decide
  simp only [displayProgress] at printed
  split at printed
  · cases printed
  · rename_i stats drawn'
    cases printed
    have count := drawn.count
    have out := drawn.newlines
    simp only [Nat.zero_add, newlines_nil] at count out
    refine ⟨by rw [count], ?_, ?_⟩
    · simp only [newlines_append, texts, newlines_totalStats drawn', newlines_decimal, out, count]
      omega
    · let s := visit (termHeight (some wsRow)) true root [] 1 false {}
      refine ⟨syncOn ++ eraseToEnd ++ (s.out ++ stats), ?_⟩
      simp only [List.append_assoc, s]

/-- A frame is printed as long as the bar is not more than full. -/
theorem displayProgress_isSome (reported : Option UInt16) :
    (displayProgress reported root sumDone sumTotal elapsed).isSome ↔
      filled sumDone sumTotal ≤ barWidth := by
  rw [← totalStats_isSome elapsed]
  simp only [displayProgress]
  cases totalStats sumDone sumTotal elapsed <;> simp

theorem names_ne_nil (node : Node) : names node ≠ [] := by
  obtain ⟨name, done, total, children⟩ := node
  simp [names]

/-- **The frame fits exactly when there is more than one row and no name that is shown contains a
newline.** -/
theorem frame_fits_iff (reported : wsRow ≠ 0)
    (printed : displayProgress (some wsRow) root sumDone sumTotal elapsed =
      some (frame, lineCount)) :
    FrameFits wsRow frame lineCount ↔
      2 ≤ wsRow.toNat ∧ ∀ name ∈ (names root).take (wsRow.toNat - 2), 10 ∉ name := by
  obtain ⟨count, lines, moves⟩ := displayProgress_spec printed
  have height : termHeight (some wsRow) = wsRow.toNat - 1 := if_pos reported
  have positive : wsRow.toNat ≠ 0 := fun zero => reported (UInt16.toNat_inj.1 zero)
  by_cases single : wsRow.toNat = 1
  · -- The test for the last row is never true.
    have all : shownNames wsRow root = names root := by
      rw [shownNames, shown, height, single]
      rfl
    have some_ := List.length_pos_iff.2 (names_ne_nil root)
    rw [all] at count
    refine iff_of_false (fun ok => ?_) (by omega)
    have := ok.fits
    omega
  · have first : shownNames wsRow root = (names root).take (wsRow.toNat - 2) := by
      rw [shownNames, shown, height, if_neg (by omega)]
      rfl
    rw [first] at count lines
    have few := List.length_take_le (wsRow.toNat - 2) (names root)
    have plain : newlines frame = lineCount ↔
        ∀ name ∈ (names root).take (wsRow.toNat - 2), 10 ∉ name := by
      rw [lines, Nat.add_eq_left, newlines_eq_zero_iff, List.mem_flatten]
      simp only [not_exists, not_and]
    rw [← plain]
    constructor
    · exact fun ok => ⟨by omega, ok.counted⟩
    · rintro ⟨-, counted⟩
      exact ⟨counted, moves, by omega⟩

end Frame

/-- A directory `r` with a file of this name in it. -/
def smallTree (name : Bytes) : Node := .mk (utf8 "r") 0 0 [.mk name 0 7 []]

theorem filled_start : filled 0 7 ≤ barWidth := filled_le (by decide)

theorem frame_fits_iff_smallTree :
    ∃ frame lineCount,
      displayProgress (some 24) (smallTree (utf8 "a")) 0 7 0 = some (frame, lineCount) ∧
        FrameFits 24 frame lineCount := by
  have drawn : (displayProgress (some 24) (smallTree (utf8 "a")) 0 7 0).isSome :=
    (displayProgress_isSome _).2 filled_start
  obtain ⟨⟨frame, lineCount⟩, printed⟩ := Option.isSome_iff_exists.1 drawn
  exact ⟨frame, lineCount, printed, (frame_fits_iff (by decide) printed).2 (by decide)⟩

/-- The file name `a\nb` makes a frame of three counted lines print four newlines; and a terminal
of one row gets three lines. -/
theorem frame_misfits :
    FileName (utf8 "a\nb") ∧
    (∃ frame, displayProgress (some 24) (smallTree (utf8 "a\nb")) 0 7 0 = some (frame, 3) ∧
      newlines frame = 4 ∧ ¬ FrameFits 24 frame 3) ∧
    ∃ frame, displayProgress (some 1) (smallTree (utf8 "a")) 0 7 0 = some (frame, 3) ∧
      ¬ FrameFits 1 frame 3 := by
  have drawn : ∀ wsRow name, (displayProgress (some wsRow) (smallTree name) 0 7 0).isSome :=
    fun wsRow name => (displayProgress_isSome _).2 filled_start
  refine ⟨by decide, ?_, ?_⟩
  · obtain ⟨⟨frame, lineCount⟩, printed⟩ :=
      Option.isSome_iff_exists.1 (drawn 24 (utf8 "a\nb"))
    obtain ⟨count, lines, -⟩ := displayProgress_spec printed
    obtain rfl : lineCount = 3 := count
    refine ⟨frame, printed, lines, fun ok => ?_⟩
    cases lines.symm.trans ok.counted
  · obtain ⟨⟨frame, lineCount⟩, printed⟩ := Option.isSome_iff_exists.1 (drawn 1 (utf8 "a"))
    obtain ⟨count, -⟩ := displayProgress_spec printed
    obtain rfl : lineCount = 3 := count
    exact ⟨frame, printed, fun ok => absurd ok.fits (by decide)⟩

end Enuwatch.Display

import Enuwatch.Lib.Text

/-!
# A terminal

A terminal takes in a text byte by byte. It has the lines above the cursor, of which the last `row`
are on the screen, the line of the cursor, and the lines below it. A newline on the last row of the
screen scrolls. A character for which there is no column left goes to the next line, as if there
were a newline before it. A byte takes one column; where several bytes are one character, a terminal
needs fewer columns for them, so that a line which fits here also fits there. Of the control
sequences only two change the text or move the cursor: `ESC [ J` erases everything from the cursor
on and `ESC [ n A` moves the cursor up, but not beyond the screen.

A block of lines that is printed after an erasure, and above which the cursor is then put back,
takes the place of what stood there before (`feed_block`), wherever on the screen it starts and
whether or not the screen scrolls, as long as there are more rows than lines and no line is longer
than the screen is wide.
-/

set_option autoImplicit false

namespace Enuwatch.Lib

/-- A byte that a terminal shows, as a character or a part of one. -/
def Printable (b : UInt8) : Prop := 32 ≤ b ∧ b ≠ 127

instance (b : UInt8) : Decidable (Printable b) := inferInstanceAs (Decidable (_ ∧ _))

/-- A text without control characters. -/
def Plain (text : Bytes) : Prop := ∀ b ∈ text, Printable b

instance (text : Bytes) : Decidable (Plain text) := List.decidableBAll Printable text

@[simp] theorem plain_append {first second : Bytes} :
    Plain (first ++ second) ↔ Plain first ∧ Plain second :=
  List.forall_mem_append

theorem plain_replicate {c : UInt8} (shown : Printable c) (count : ℕ) :
    Plain (List.replicate count c) := by
  intro b among
  rw [List.eq_of_mem_replicate among]
  exact shown

@[simp] theorem plain_blanks (count : ℕ) : Plain (blanks count) := plain_replicate (by decide) count

@[simp] theorem plain_padLeft {width : ℕ} {text : Bytes} : Plain (padLeft width text) ↔ Plain text := by
  simp [padLeft]

@[simp] theorem plain_padRight {width : ℕ} {text : Bytes} :
    Plain (padRight width text) ↔ Plain text := by
  simp [padRight]

/-- The digits of a number are between `0` and `9`. -/
theorem mem_decimal {n : ℕ} {b : UInt8} (among : b ∈ decimal n) : 48 ≤ b ∧ b < 58 := by
  unfold decimal at among
  split at among
  · obtain rfl := List.mem_singleton.1 among
    decide
  · obtain ⟨digit, member, rfl⟩ := List.mem_map.1 among
    have small := Nat.digits_lt_base (by norm_num) (List.mem_reverse.1 member)
    rw [UInt8.le_iff_toNat_le, UInt8.lt_iff_toNat_lt,
      UInt8.toNat_ofNat_of_lt' (by show 48 + digit < 256; omega)]
    show 48 ≤ 48 + digit ∧ 48 + digit < 58
    omega

@[simp] theorem plain_decimal (n : ℕ) : Plain (decimal n) := by
  intro b among
  obtain ⟨low, high⟩ := mem_decimal among
  exact ⟨UInt8.le_trans (by decide) low, fun same => absurd (same ▸ high) (by decide)⟩

@[simp] theorem plain_fixed (digits : ℕ) (x : ℚ) : Plain (fixed digits x) := by
  have point : Plain (utf8 ".") := by decide
  have zeros : ∀ count, Plain (List.replicate count 48) := plain_replicate (by decide)
  unfold fixed
  split <;> simp [point, zeros]

inductive Mode where
  | text
  /-- After an escape character. -/
  | escape
  /-- In a control sequence, after these parameters. -/
  | control (params : Bytes)
deriving DecidableEq, Repr

structure Terminal where
  height : ℕ
  width : ℕ
  above : List Bytes := []
  /-- How many of the lines above are on the screen. -/
  row : ℕ := 0
  line : Bytes := []
  col : ℕ := 0
  below : List Bytes := []
  mode : Mode := .text
deriving DecidableEq, Repr

namespace Terminal

def newline (t : Terminal) : Terminal :=
  { t with
    above := t.above ++ [t.line]
    row := min (t.row + 1) (t.height - 1)
    line := t.below.headD []
    col := 0
    below := t.below.tail }

/-- A full line is left before the next character. -/
def wrap (t : Terminal) : Terminal := if t.col < t.width then t else t.newline

/-- A character at the cursor, in the place of what is there. -/
def overwrite (t : Terminal) (b : UInt8) : Terminal :=
  { t with
    line := t.line.take t.col ++ blanks (t.col - t.line.length) ++ [b] ++ t.line.drop (t.col + 1)
    col := t.col + 1 }

def write (t : Terminal) (b : UInt8) : Terminal := t.wrap.overwrite b

def erase (t : Terminal) : Terminal := { t with line := t.line.take t.col, below := [] }

def up (t : Terminal) (count : ℕ) : Terminal :=
  let kept := t.above.length - min count t.row
  let lines := t.above.drop kept ++ t.line :: t.below
  { t with
    above := t.above.take kept
    row := t.row - min count t.row
    line := lines.headD []
    below := lines.tail }

/-- The number that a parameter stands for. -/
def number (params : Bytes) : ℕ := Nat.ofDigits 10 (params.reverse.map fun b => b.toNat - 48)

/-- A control sequence with this last byte. -/
def execute (t : Terminal) (params : Bytes) (final : UInt8) : Terminal :=
  if final = 74 ∧ params = [] then t.erase
  else if final = 65 then t.up (max 1 (number params))
  else t

/-- One byte. -/
def put (t : Terminal) (b : UInt8) : Terminal :=
  match t.mode with
  | .text =>
      if b = 27 then { t with mode := .escape }
      else if b = 10 then t.newline
      else if b = 13 then { t with col := 0 }
      else if Printable b then t.write b
      else t
  | .escape => if b = 91 then { t with mode := .control [] } else { t with mode := .text }
  | .control params =>
      if 64 ≤ b ∧ b < 127 then execute { t with mode := .text } params b
      else { t with mode := .control (params ++ [b]) }

def feed (t : Terminal) (text : Bytes) : Terminal := text.foldl put t

/-- Everything on the terminal, from the first line on. -/
def lines (t : Terminal) : List Bytes := t.above ++ t.line :: t.below

@[simp] theorem feed_nil (t : Terminal) : t.feed [] = t := rfl

@[simp] theorem feed_cons (t : Terminal) (b : UInt8) (text : Bytes) :
    t.feed (b :: text) = (t.put b).feed text :=
  rfl

theorem feed_append (t : Terminal) (first second : Bytes) :
    t.feed (first ++ second) = (t.feed first).feed second :=
  List.foldl_append

/-! ## Lines -/

variable {t : Terminal}

theorem put_printable (mode : t.mode = .text) {b : UInt8} (shown : Printable b) :
    t.put b = t.write b := by
  have escape : b ≠ 27 := by
    rintro rfl
    exact absurd shown (by decide)
  have newline : b ≠ 10 := by
    rintro rfl
    exact absurd shown (by decide)
  have back : b ≠ 13 := by
    rintro rfl
    exact absurd shown (by decide)
  simp [put, mode, escape, newline, back, shown]

/-- A character at the end of a line with room for it. -/
theorem write_end (ends : t.col = t.line.length) (room : t.col < t.width) (b : UInt8) :
    t.write b = { t with line := t.line ++ [b], col := t.col + 1 } := by
  rw [write, wrap, if_pos room]
  simp [overwrite, ends, blanks]

/-- A text at the end of its line. -/
theorem feed_plain {text : Bytes} (plain : Plain text) (mode : t.mode = .text)
    (ends : t.col = t.line.length) (room : t.col + text.length ≤ t.width) :
    t.feed text = { t with line := t.line ++ text, col := t.col + text.length } := by
  induction text generalizing t with
  | nil => simp
  | cons b text ih =>
      obtain ⟨shown, plain⟩ := List.forall_mem_cons.1 plain
      rw [List.length_cons] at room
      rw [feed_cons, put_printable mode shown, write_end ends (by omega)]
      have rest := ih (t := { t with line := t.line ++ [b], col := t.col + 1 }) plain mode
        (by simp [ends]) (show t.col + 1 + text.length ≤ t.width by omega)
      rw [rest]
      simp only [List.append_assoc, List.singleton_append, List.length_cons, Nat.add_assoc,
        Nat.add_comm 1]

/-- Lines, each with its newline. -/
def block (ls : List Bytes) : Bytes := ls.flatMap (· ++ [10])

/-- The lines of a block are those between its newlines, and an empty one at its end. -/
theorem splitOn_block {ls : List Bytes} (plain : ∀ l ∈ ls, Plain l) :
    (block ls).splitOn 10 = ls ++ [[]] := by
  have joined : block ls = [10].intercalate (ls ++ [[]]) := by
    induction ls with
    | nil => rfl
    | cons l ls ih =>
        have rest := ih (List.forall_mem_cons.1 plain).2
        rw [block, List.flatMap_cons, ← block, rest]
        obtain ⟨next, others, same⟩ := List.exists_cons_of_ne_nil
          (show ls ++ [[]] ≠ ([] : List Bytes) by simp)
        rw [List.cons_append, same]
        simp [List.intercalate]
  have clean : ∀ l ∈ ls ++ [[]], 10 ∉ l := by
    refine List.forall_mem_append.2 ⟨fun l among newline => ?_, by simp⟩
    exact absurd (plain l among 10 newline) (by decide)
  rw [joined, List.splitOn_intercalate 10 clean (by simp)]

/-- Lines at the end of the text. -/
theorem feed_lines {ls : List Bytes} (plain : ∀ l ∈ ls, Plain l)
    (narrow : ∀ l ∈ ls, l.length ≤ t.width) (mode : t.mode = .text)
    (row : t.row ≤ t.height - 1) (line : t.line = []) (col : t.col = 0) (below : t.below = []) :
    t.feed (block ls) =
      { t with above := t.above ++ ls, row := min (t.row + ls.length) (t.height - 1) } := by
  induction ls generalizing t with
  | nil => simp [block, row]
  | cons l ls ih =>
      obtain ⟨first, plain⟩ := List.forall_mem_cons.1 plain
      obtain ⟨room, narrow⟩ := List.forall_mem_cons.1 narrow
      have text : t.feed (l ++ [10]) =
          { t with above := t.above ++ [l], row := min (t.row + 1) (t.height - 1) } := by
        rw [feed_append, feed_plain first mode (by simp [line, col]) (by omega)]
        simp [put, mode, newline, line, col, below]
      rw [block, List.flatMap_cons, feed_append, text]
      have rest := ih (t := { t with
        above := t.above ++ [l], row := min (t.row + 1) (t.height - 1) }) plain narrow mode
        (Nat.min_le_right _ _) line col below
      have rows : min (min (t.row + 1) (t.height - 1) + ls.length) (t.height - 1) =
          min (t.row + (l :: ls).length) (t.height - 1) := by
        rw [List.length_cons]
        omega
      rw [← block, rest]
      simp only [List.append_assoc, List.singleton_append, rows]

/-! ## Control sequences -/

/-- A control sequence whose parameters are no last bytes. -/
theorem feed_control (mode : t.mode = .text) {params : Bytes} {final : UInt8}
    (inside : ∀ b ∈ params, b < 64) (last : 64 ≤ final ∧ final < 127) :
    t.feed (27 :: 91 :: params ++ [final]) = t.execute params final := by
  have collect : ∀ (rest got : Bytes), (∀ b ∈ rest, b < 64) →
      feed { t with mode := .control got } rest = { t with mode := .control (got ++ rest) } := by
    intro rest
    induction rest with
    | nil => simp
    | cons b rest ih =>
        intro got small
        obtain ⟨low, small⟩ := List.forall_mem_cons.1 small
        have more : ¬ (64 ≤ b ∧ b < 127) := fun high => absurd high.1 (UInt8.not_le.2 low)
        rw [feed_cons, put]
        simp only [more, if_false]
        rw [ih _ small]
        simp
  have opened : (t.put 27).put 91 = { t with mode := .control [] } := by simp [put, mode]
  have closed : { t with mode := .text } = t := by rw [← mode]
  rw [List.cons_append, List.cons_append, feed_cons, feed_cons, opened, feed_append,
    collect params [] inside, feed_cons, feed_nil, put]
  simp only [last, and_self, if_true, List.nil_append, closed]

theorem number_decimal (n : ℕ) : number (decimal n) = n := by
  unfold number decimal
  split
  · rename_i zero
    simp [zero]
  · have digits : (Nat.digits 10 n).map (fun digit => (UInt8.ofNat (48 + digit)).toNat - 48) =
        Nat.digits 10 n := by
      refine (List.map_congr_left fun digit among => ?_).trans (List.map_id _)
      have small := Nat.digits_lt_base (by norm_num) among
      rw [UInt8.toNat_ofNat_of_lt' (by show 48 + digit < 256; omega)]
      exact Nat.add_sub_cancel_left 48 digit
    simp only [← List.map_reverse, List.reverse_reverse, List.map_map, Function.comp_def, digits,
      Nat.ofDigits_digits]

/-! ## Blocks -/

/-- The erasure of everything from the cursor on. -/
def eraseSequence : Bytes := utf8 "\x1b[J"

/-- The move of the cursor up by so many lines. -/
def upSequence (count : ℕ) : Bytes := utf8 "\x1b[" ++ decimal count ++ utf8 "A"

theorem feed_erase (mode : t.mode = .text) : t.feed eraseSequence = t.erase := by
  have sequence : eraseSequence = 27 :: 91 :: [] ++ [74] := by decide
  rw [sequence, feed_control mode (by simp) (by decide)]
  rfl

theorem feed_up (mode : t.mode = .text) {count : ℕ} (some_ : 0 < count) :
    t.feed (upSequence count) = t.up count := by
  have sequence : upSequence count = 27 :: 91 :: decimal count ++ [65] := by
    rw [upSequence, show utf8 "\x1b[" = [27, 91] by decide, show utf8 "A" = [65] by decide]
    rfl
  have below : ∀ b ∈ decimal count, b < 64 :=
    fun b among => UInt8.lt_trans (mem_decimal among).2 (by decide)
  rw [sequence, feed_control mode below (by decide), execute, number_decimal,
    if_neg (by simp), if_pos rfl, Nat.max_eq_right some_]

/-- Up to the first of some lines that are all on the screen. -/
theorem up_append {before ls : List Bytes} (above : t.above = before ++ ls)
    (inside : ls.length ≤ t.row) : t.up ls.length =
      { t with
        above := before
        row := t.row - ls.length
        line := (ls ++ t.line :: t.below).headD []
        below := (ls ++ t.line :: t.below).tail } := by
  simp [up, above, Nat.min_eq_left inside]

/-- At the beginning of a line on the screen, and not in a control sequence. -/
structure Ready (t : Terminal) : Prop where
  mode : t.mode = .text
  col : t.col = 0
  row : t.row ≤ t.height - 1

/-- What is printed after an erasure, with the cursor put back above it, takes the place of
everything below. -/
theorem feed_block (ready : t.Ready) {ls : List Bytes} (plain : ∀ l ∈ ls, Plain l)
    (narrow : ∀ l ∈ ls, l.length ≤ t.width) (some_ : ls ≠ []) (fits : ls.length ≤ t.height - 1) :
    t.feed (eraseSequence ++ block ls ++ upSequence ls.length) =
      { t with
        row := min (t.row + ls.length) (t.height - 1) - ls.length
        line := ls.headD []
        below := ls.tail ++ [[]] } := by
  obtain ⟨mode, col, row⟩ := ready
  have erased : t.erase = { t with line := [], below := [] } := by simp [erase, col]
  have printed := feed_lines (t := { t with line := [], below := [] }) plain narrow mode row rfl col
    rfl
  have inside : ls.length ≤ min (t.row + ls.length) (t.height - 1) := by omega
  let shown : Terminal := { t with
    above := t.above ++ ls, row := min (t.row + ls.length) (t.height - 1), line := [], below := [] }
  have back : shown.feed (upSequence ls.length) = shown.up ls.length :=
    feed_up (show shown.mode = .text from mode) (List.length_pos_iff.2 some_)
  have above : shown.above = t.above ++ ls := rfl
  rw [feed_append, feed_append, feed_erase mode, erased, printed]
  refine (back.trans (up_append above inside)).trans ?_
  obtain ⟨l, rest, rfl⟩ := List.exists_cons_of_ne_nil some_
  rfl

end Terminal

end Enuwatch.Lib

import Enuwatch.Lib.Binary64
import Enuwatch.Lib.Buffer

/-!
# Text for a terminal

Numbers in decimal notation, with or without a fraction, and padding to a width. What a terminal
makes of a text depends on how many lines it has, so each way of building a text comes with the
number of its newlines.
-/

set_option autoImplicit false

namespace Enuwatch.Lib

/-- The newline characters of a text. -/
def newlines (text : Bytes) : ℕ := text.count 10

@[simp] theorem newlines_nil : newlines [] = 0 := rfl

@[simp] theorem newlines_append (first second : Bytes) :
    newlines (first ++ second) = newlines first + newlines second :=
  List.count_append

theorem newlines_eq_zero_iff {text : Bytes} : newlines text = 0 ↔ 10 ∉ text :=
  List.count_eq_zero

/-- Blanks. -/
def blanks (count : ℕ) : Bytes := List.replicate count 32

@[simp] theorem newlines_replicate {c : UInt8} (other : c ≠ 10) (count : ℕ) :
    newlines (List.replicate count c) = 0 := by
  rw [newlines_eq_zero_iff, List.mem_replicate]
  exact fun found => other found.2.symm

@[simp] theorem newlines_blanks (count : ℕ) : newlines (blanks count) = 0 :=
  newlines_replicate (by decide) count

/-- A text to the right of a column of this width. -/
def padLeft (width : ℕ) (text : Bytes) : Bytes := blanks (width - text.length) ++ text

/-- A text to the left of it. -/
def padRight (width : ℕ) (text : Bytes) : Bytes := text ++ blanks (width - text.length)

@[simp] theorem newlines_padLeft (width : ℕ) (text : Bytes) :
    newlines (padLeft width text) = newlines text := by
  simp [padLeft]

@[simp] theorem newlines_padRight (width : ℕ) (text : Bytes) :
    newlines (padRight width text) = newlines text := by
  simp [padRight]

/-- A number in decimal notation. -/
def decimal (n : ℕ) : Bytes :=
  if n = 0 then [48] else (Nat.digits 10 n).reverse.map fun digit => .ofNat (48 + digit)

theorem digit_ne_newline {digit : ℕ} (small : digit < 10) : UInt8.ofNat (48 + digit) ≠ 10 := by
  intro same
  have value := congrArg UInt8.toNat same
  rw [UInt8.toNat_ofNat_of_lt' (by show 48 + digit < 256; omega)] at value
  change 48 + digit = 10 at value
  omega

@[simp] theorem newlines_decimal (n : ℕ) : newlines (decimal n) = 0 := by
  rw [newlines_eq_zero_iff, decimal]
  split
  · decide
  · intro found
    obtain ⟨digit, among, same⟩ := List.mem_map.1 found
    exact digit_ne_newline (Nat.digits_lt_base (by norm_num) (List.mem_reverse.1 among)) same

/-- A number that is not negative, with so many digits after the point. -/
def fixed (digits : ℕ) (x : ℚ) : Bytes :=
  let scaled := (nearestEven (x * 10 ^ digits)).toNat
  if digits = 0 then decimal scaled
  else
    let fraction := decimal (scaled % 10 ^ digits)
    decimal (scaled / 10 ^ digits) ++ utf8 "." ++
      (List.replicate (digits - fraction.length) 48 ++ fraction)

@[simp] theorem newlines_fixed (digits : ℕ) (x : ℚ) : newlines (fixed digits x) = 0 := by
  have point : newlines (utf8 ".") = 0 := by decide
  have zero : (48 : UInt8) ≠ 10 := by decide
  unfold fixed
  split
  · simp
  · simp [point, newlines_replicate zero]

example : fixed 1 (1049 / 20) = utf8 "52.4" ∧ padLeft 5 (fixed 0 (5 / 2)) = utf8 "    2" := by
  decide +kernel

end Enuwatch.Lib

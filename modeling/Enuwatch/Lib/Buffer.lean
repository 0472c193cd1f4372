import Mathlib.Tactic

/-!
# Byte buffers

Three operations every buffer of a C program sees: growing or shrinking it with
zero fill (`resize`), storing a block at an offset (`overwrite`), and laying a
number out in little-endian bytes (`leBytes`) and reading it back (`leNat`).

A buffer that is filled from the front is a list of received bytes followed by
zeros. Storing the next block at the fill mark keeps that shape
(`overwrite_filled`).
-/

set_option autoImplicit false

namespace Enuwatch.Lib

abbrev Bytes := List UInt8

/-- The bytes of a text. -/
def utf8 (text : String) : Bytes := text.toList.flatMap String.utf8EncodeChar

/-- Zero fill. -/
def zeros (count : ℕ) : Bytes := List.replicate count 0

@[simp] theorem length_zeros (count : ℕ) : (zeros count).length = count :=
  List.length_replicate ..

@[simp] theorem zeros_zero : zeros 0 = [] := rfl

/-- Change the length of a buffer: cut it, or fill the new end with zeros. -/
def resize (buffer : Bytes) (size : ℕ) : Bytes :=
  buffer.take size ++ zeros (size - buffer.length)

theorem resize_nil (size : ℕ) : resize [] size = zeros size := by
  simp [resize]

theorem resize_grow (buffer : Bytes) (extra : ℕ) :
    resize buffer (buffer.length + extra) = buffer ++ zeros extra := by
  rw [resize, List.take_of_length_le (Nat.le_add_right _ _), Nat.add_sub_cancel_left]

theorem resize_self (buffer : Bytes) : resize buffer buffer.length = buffer := by
  simp [resize]

@[simp] theorem length_resize (buffer : Bytes) (size : ℕ) : (resize buffer size).length = size := by
  simp only [resize, List.length_append, List.length_take, length_zeros]
  omega

/-- Store a block at an offset. -/
def overwrite (buffer : Bytes) (offset : ℕ) (block : Bytes) : Bytes :=
  buffer.take offset ++ block ++ buffer.drop (offset + block.length)

@[simp] theorem overwrite_nil (buffer : Bytes) (offset : ℕ) :
    overwrite buffer offset [] = buffer := by
  simp [overwrite]

/-- Storing the next block at the fill mark of a buffer. -/
theorem overwrite_filled (filled block : Bytes) (room : ℕ) :
    overwrite (filled ++ zeros room) filled.length block =
      filled ++ block ++ zeros (room - block.length) := by
  simp only [overwrite, List.take_left, List.drop_append, List.append_assoc]
  simp [zeros]

theorem length_overwrite {buffer block : Bytes} {offset : ℕ}
    (fits : offset + block.length ≤ buffer.length) :
    (overwrite buffer offset block).length = buffer.length := by
  simp only [overwrite, List.length_append, List.length_take, List.length_drop]
  omega

/-- Two blocks that follow each other are one. -/
theorem overwrite_overwrite {buffer first second : Bytes} {offset : ℕ}
    (inside : offset ≤ buffer.length) :
    overwrite (overwrite buffer offset first) (offset + first.length) second =
      overwrite buffer offset (first ++ second) := by
  have front : (buffer.take offset ++ first).length = offset + first.length := by
    rw [List.length_append, List.length_take, min_eq_left inside]
  have kept : (buffer.take offset ++ first ++ buffer.drop (offset + first.length)).take
      (offset + first.length) = buffer.take offset ++ first := List.take_left' front
  have beyond : (buffer.take offset ++ first ++ buffer.drop (offset + first.length)).drop
      (offset + first.length + second.length) =
        buffer.drop (offset + (first ++ second).length) := by
    rw [← List.drop_drop, List.drop_left' front, List.drop_drop, List.length_append, Nat.add_assoc]
  unfold overwrite
  rw [kept, beyond, List.append_assoc (buffer.take offset) first second]

/-! ## Little-endian numbers -/

/-- The `width` little-endian bytes of a number. -/
def leBytes : ℕ → ℕ → Bytes
  | 0, _ => []
  | width + 1, n => UInt8.ofNat n :: leBytes width (n / 256)

/-- The number that little-endian bytes denote. -/
def leNat : Bytes → ℕ
  | [] => 0
  | b :: rest => b.toNat + 256 * leNat rest

@[simp] theorem length_leBytes (width n : ℕ) : (leBytes width n).length = width := by
  induction width generalizing n with
  | zero => rfl
  | succ width ih => simp [leBytes, ih]

theorem leNat_leBytes {width n : ℕ} (bound : n < 256 ^ width) : leNat (leBytes width n) = n := by
  induction width generalizing n with
  | zero =>
      have : n = 0 := by simpa using bound
      simp [leBytes, leNat, this]
  | succ width ih =>
      have rest : n / 256 < 256 ^ width := by
        rw [Nat.div_lt_iff_lt_mul (by norm_num)]
        simpa [pow_succ] using bound
      simp only [leBytes, leNat, ih rest, UInt8.toNat_ofNat']
      omega

end Enuwatch.Lib

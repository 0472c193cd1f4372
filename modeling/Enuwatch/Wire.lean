import Enuwatch.Lib.Buffer

/-!
# The messages of the protocol

`DataMessage` is the header of every message: a C struct copied to the socket as
it lies in memory. Both ends run on little-endian machines and share the layout

| offset | 0   | 4     | 8     | 9   | 10       | 12  | 16    | 24   |
|--------|-----|-------|-------|-----|----------|-----|-------|------|
| field  | seq | perms | ftype | pad | path_len | pad | fsize | data |

The five padding bytes are not initialised by the sender, so the encoding takes
them as an argument; decoding does not look at them (`decode_encode`).
-/

set_option autoImplicit false

namespace Enuwatch

open Enuwatch.Lib

/-- `fs::file_type`. -/
inductive FileType where
  | none
  | notFound
  | regular
  | directory
  | symlink
  | block
  | character
  | fifo
  | socket
  | unknown
deriving DecidableEq, Repr

/-- The byte a `fs::file_type` is stored in. -/
def FileType.code : FileType → UInt8
  | .none => 0
  | .notFound => 255
  | .regular => 1
  | .directory => 2
  | .symlink => 3
  | .block => 4
  | .character => 5
  | .fifo => 6
  | .socket => 7
  | .unknown => 8

theorem FileType.code_eq_regular {ftype : FileType} :
    ftype.code = FileType.regular.code ↔ ftype = .regular := by
  cases ftype <;> decide

/-- What the scanner records about a file. -/
structure M where
  name : Bytes
  perms : UInt32
  ftype : FileType
  fsize : UInt64 := 0
deriving DecidableEq, Repr

/-- The header of a message. The type byte is kept as it stands: a header read from
a socket may hold a value that is no `fs::file_type`. -/
structure DataMessage where
  seq : UInt32
  perms : UInt32
  ftype : UInt8
  pathLen : UInt16
  fsize : UInt64
deriving DecidableEq, Repr

/-- The padding bytes of the struct, at offsets 9 and 12. -/
structure Padding where
  inner : UInt8
  outer : UInt32
deriving DecidableEq, Repr

namespace DataMessage

/-- `sizeof(DataMessage)`, which is also the offset of `data`. -/
def size : ℕ := 24

/-- The struct as it lies in memory. -/
def encode (pad : Padding) (msg : DataMessage) : Bytes :=
  leBytes 4 msg.seq.toNat ++ (leBytes 4 msg.perms.toNat ++ ([msg.ftype, pad.inner] ++
    (leBytes 2 msg.pathLen.toNat ++ (leBytes 4 pad.outer.toNat ++ leBytes 8 msg.fsize.toNat))))

/-- `reinterpret_cast<DataMessage*>(buf)`. -/
def decode (buf : Bytes) : DataMessage where
  seq := .ofNat (leNat (buf.take 4))
  perms := .ofNat (leNat ((buf.drop 4).take 4))
  ftype := (buf.drop 8).headD 0
  pathLen := .ofNat (leNat ((buf.drop 10).take 2))
  fsize := .ofNat (leNat ((buf.drop 16).take 8))

@[simp] theorem length_encode (pad : Padding) (msg : DataMessage) :
    (msg.encode pad).length = size := by
  simp [encode, size]

/-- Decoding reads the header only. -/
theorem decode_append {header : Bytes} (whole : header.length = size) (rest : Bytes) :
    decode (header ++ rest) = decode header := by
  have field : ∀ offset width, offset + width ≤ size →
      ((header ++ rest).drop offset).take width = (header.drop offset).take width := by
    intro offset width within
    rw [List.drop_append_of_le_length (by omega), List.take_append_of_le_length]
    rw [List.length_drop]
    omega
  have first : (header ++ rest).take 4 = header.take 4 := field 0 4 (by decide)
  have byte : ((header ++ rest).drop 8).headD 0 = (header.drop 8).headD 0 := by
    rw [List.drop_append_of_le_length (by rw [whole]; decide)]
    cases tail : header.drop 8 with
    | nil =>
        have := congrArg List.length tail
        rw [List.length_drop, whole] at this
        exact absurd this (by decide)
    | cons b bs => rfl
  simp only [decode, first, byte, field 4 4 (by decide), field 10 2 (by decide),
    field 16 8 (by decide)]

/-- Decoding undoes encoding, whatever the padding. -/
theorem decode_encode (pad : Padding) (msg : DataMessage) : decode (msg.encode pad) = msg := by
  obtain ⟨seq, perms, ftype, pathLen, fsize⟩ := msg
  have seqBound : seq.toNat < 256 ^ 4 := seq.toNat_lt
  have permsBound : perms.toNat < 256 ^ 4 := perms.toNat_lt
  have pathBound : pathLen.toNat < 256 ^ 2 := pathLen.toNat_lt
  have sizeBound : fsize.toNat < 256 ^ 8 := fsize.toNat_lt
  have cut : ∀ (width n : ℕ) (rest : Bytes), (leBytes width n ++ rest).take width = leBytes width n :=
    fun width n rest => by rw [List.take_left' (length_leBytes width n)]
  have skip : ∀ (width n offset : ℕ) (rest : Bytes),
      (leBytes width n ++ rest).drop (width + offset) = rest.drop offset :=
    fun width n offset rest => by
      rw [← List.drop_drop, List.drop_left' (length_leBytes width n)]
  have skipBytes : ∀ (a b : UInt8) (offset : ℕ) (rest : Bytes),
      ([a, b] ++ rest).drop (2 + offset) = rest.drop offset :=
    fun a b offset rest => by rw [← List.drop_drop]; rfl
  simp only [decode, encode, DataMessage.mk.injEq]
  refine ⟨?_, ?_, ?_, ?_, ?_⟩
  · rw [cut, leNat_leBytes seqBound, UInt32.ofNat_toNat]
  · rw [show (4 : ℕ) = 4 + 0 from rfl, skip, List.drop_zero, cut, leNat_leBytes permsBound,
      UInt32.ofNat_toNat]
  · rw [show (8 : ℕ) = 4 + 4 from rfl, skip, show (4 : ℕ) = 4 + 0 from rfl, skip]
    rfl
  · rw [show (10 : ℕ) = 4 + 6 from rfl, skip, show (6 : ℕ) = 4 + 2 from rfl, skip,
      show (2 : ℕ) = 2 + 0 from rfl, skipBytes, List.drop_zero, cut, leNat_leBytes pathBound,
      UInt16.ofNat_toNat]
  · rw [show (16 : ℕ) = 4 + 12 from rfl, skip, show (12 : ℕ) = 4 + 8 from rfl, skip,
      show (8 : ℕ) = 2 + 6 from rfl, skipBytes, show (6 : ℕ) = 2 + 4 from rfl, skip,
      show (4 : ℕ) = 4 + 0 from rfl, skip, List.drop_zero,
      List.take_of_length_le (by simp), leNat_leBytes sizeBound, UInt64.ofNat_toNat]

end DataMessage

/-- The message that tells the daemon where to listen. -/
structure DaemonInitMessage where
  basePort : UInt16
  nConns : UInt16
deriving DecidableEq, Repr

namespace DaemonInitMessage

/-- `sizeof(DaemonInitMessage)`. -/
def size : ℕ := 4

def encode (msg : DaemonInitMessage) : Bytes :=
  leBytes 2 msg.basePort.toNat ++ leBytes 2 msg.nConns.toNat

def decode (buf : Bytes) : DaemonInitMessage where
  basePort := .ofNat (leNat (buf.take 2))
  nConns := .ofNat (leNat ((buf.drop 2).take 2))

end DaemonInitMessage

end Enuwatch

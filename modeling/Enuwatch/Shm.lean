import Enuwatch.Lib.Ring
import Mathlib.Data.List.Forall2
import Mathlib.Data.List.Induction
import Mathlib.Tactic.Linarith

/-!
# The queue in shared memory

`shm.h` keeps a ring of 32-bit words. `head_` counts the pushes modulo `2 ^ 32`, and a word is
stored at the slot that the count has modulo `buf_.size()`. A reader has a count of its own, which
starts at the writer's.

As long as the counts do not wrap and the reader is at most `buf_.size()` values behind, the words
come out in the order in which they went in (`session_agrees`). What a caller sees of them is less:
`push` takes 64 bits of which 32 are kept, and the `return false` of an empty `pop` is an optional
that holds a zero. So a run is one of a queue exactly when no `pop` finds nothing and every value
that is popped survives the conversions (`fifo_iff`).

When the counts wrap, the slots start again at zero before the ring has come round, since `2 ^ 32`
is no multiple of `buf_.size()`. Values that are waiting are then overwritten (`wrap_iff`).
-/

set_option autoImplicit false

namespace Enuwatch.Shm

open Enuwatch.Lib

/-! ## The queue -/

/-- `SHM_SIZE`. -/
def shmSize : ℕ := 1024 * 4

/-- The length of `ShmBuffer`, `SHM_SIZE / sizeof(uint32_t) - sizeof(uint32_t)`. -/
def bufSize : ℕ := shmSize / 4 - 4

/-- An integer type, the element type `T` of a queue. -/
inductive IntType where
  | bool
  | integer (signed : Bool) (width : ℕ) (positive : 0 < width)
deriving DecidableEq, Repr

/-- Conversion to an integer type. -/
def IntType.convert : IntType → ℤ → ℤ
  | .bool, x => if x = 0 then 0 else 1
  | .integer false width _, x => x % 2 ^ width
  | .integer true width _, x => x.bmod (2 ^ width)

theorem IntType.convert_zero_ne_one (T : IntType) : T.convert 0 ≠ T.convert 1 := by
  cases T with
  | bool => decide
  | integer signed width positive =>
      -- Both conversions keep the residue, and there are at least two residues.
      have residue : ∀ x, IntType.convert (.integer signed width positive) x % 2 ^ width =
          x % 2 ^ width := by
        intro x
        cases signed with
        | false => exact Int.emod_emod_of_dvd x dvd_rfl
        | true => exact_mod_cast Int.bmod_emod
      have large : (1 : ℤ) < 2 ^ width := one_lt_pow₀ (by norm_num) positive.ne'
      intro same
      have classes : (0 : ℤ) % 2 ^ width = 1 % 2 ^ width := by rw [← residue, same, residue]
      rw [Int.zero_emod, Int.emod_eq_of_lt zero_le_one large] at classes
      exact zero_ne_one classes

structure ShmQueue where
  head : UInt32
  buf : Fin bufSize → UInt32

structure ShmReader where
  tail : UInt32
deriving DecidableEq, Repr

/-- The element of `buf_` at `idx % buf_.size()`. -/
def slotOf (idx : ℕ) : Fin bufSize := ⟨idx % bufSize, Nat.mod_lt idx (by decide)⟩

/-- `push`: the element is a `uint32_t`, and so is `head_`. -/
def ShmQueue.push (q : ShmQueue) (value : UInt64) : ShmQueue :=
  let idx := q.head.toNat
  { buf := Function.update q.buf (slotOf idx) value.toUInt32
    head := UInt32.ofNat (idx + 1) }

def ShmQueue.reader (q : ShmQueue) : ShmReader := ⟨q.head⟩

/-- `pop`, and the reader afterwards. -/
def ShmReader.pop (T : IntType) (r : ShmReader) (q : ShmQueue) : Option ℤ × ShmReader :=
  -- `return false` in a function that returns a `std::optional<T>` converts `false` to `T`.
  if r.tail = q.head then (some (T.convert 0), r)
  else (some (T.convert (q.buf (slotOf r.tail.toNat)).toNat), ⟨r.tail + 1⟩)

/-- A new segment is filled with zeros. -/
def ShmQueue.new : ShmQueue := ⟨0, fun _ => 0⟩

/-- The element lies within the `SHM_SIZE` bytes that `open` maps: `buf_` starts at the second of
two lines of 64 bytes. -/
def Mapped (i : Fin bufSize) : Prop := 64 + 4 * (i + 1) ≤ shmSize

/-- The last twelve elements are beyond the end of the segment. -/
theorem mapped_iff (i : Fin bufSize) : Mapped i ↔ (i : ℕ) < bufSize - 12 := by
  unfold Mapped bufSize shmSize
  omega

/-! ## Runs -/

inductive Op where
  | push (value : UInt64)
  | pop
deriving DecidableEq, Repr

/-- A writer and a reader, and what the reader's calls of `pop` have returned. -/
structure Session where
  queue : ShmQueue
  reader : ShmReader
  popped : List (Option ℤ) := []

def Session.step (T : IntType) (s : Session) : Op → Session
  | .push value => { s with queue := s.queue.push value }
  | .pop =>
      { s with
        reader := (s.reader.pop T s.queue).2
        popped := s.popped ++ [(s.reader.pop T s.queue).1] }

/-- The queue after the values that are pushed before there is a reader. -/
def ShmQueue.after (earlier : List UInt64) : ShmQueue := earlier.foldl ShmQueue.push .new

/-- A reader is obtained after some values, and the run goes on from there. -/
def session (T : IntType) (earlier : List UInt64) (ops : List Op) : Session :=
  ops.foldl (Session.step T) { queue := .after earlier, reader := (ShmQueue.after earlier).reader }

/-- The values that a run pushes. -/
def pushed : List Op → List UInt64
  | [] => []
  | .push value :: ops => value :: pushed ops
  | .pop :: ops => pushed ops

/-! ## What a queue does -/

/-- A queue: what waits in it, and what was taken out; `none` for a `pop` that finds nothing. -/
structure Fifo where
  pending : List UInt64 := []
  popped : List (Option UInt64) := []
deriving DecidableEq, Repr

def Fifo.step (f : Fifo) : Op → Fifo
  | .push value => { f with pending := f.pending ++ [value] }
  | .pop =>
      match f.pending with
      | [] => { f with popped := f.popped ++ [none] }
      | value :: rest => { pending := rest, popped := f.popped ++ [some value] }

def Fifo.run (ops : List Op) : Fifo := ops.foldl Fifo.step {}

/-- The reader is never more than the length of the buffer behind. -/
def KeepsUp : Fifo → List Op → Prop
  | f, [] => f.pending.length ≤ bufSize
  | f, op :: ops => f.pending.length ≤ bufSize ∧ KeepsUp (f.step op) ops

instance KeepsUp.decidable : ∀ f ops, Decidable (KeepsUp f ops)
  | _, [] => inferInstanceAs (Decidable (_ ≤ _))
  | f, op :: ops =>
      have := KeepsUp.decidable (f.step op) ops
      inferInstanceAs (Decidable (_ ∧ _))

/-- What `pop` has returned is this value, as a number of the type that `push` takes. -/
def Same : Option ℤ → Option UInt64 → Prop
  | none, none => True
  | some got, some value => got % 2 ^ 64 = value.toNat
  | _, _ => False

/-- The run is one of a queue: each `pop` returns what it has to, and `tail_` moves on exactly when
it returns a value. -/
structure FifoOk (T : IntType) (earlier : List UInt64) (ops : List Op) : Prop where
  values : List.Forall₂ Same (session T earlier ops).popped (Fifo.run ops).popped
  tail : (session T earlier ops).reader.tail =
    (ShmQueue.after earlier).reader.tail +
      .ofNat ((Fifo.run ops).popped.filter Option.isSome).length

/-- The value comes through the buffer and the element type unchanged. -/
def Survives (T : IntType) (value : UInt64) : Prop :=
  T.convert value.toUInt32.toNat % 2 ^ 64 = value.toNat

/-! ## The words that come out -/

/-- What `pop` returns where a queue returns this. -/
def observed (T : IntType) : Option UInt64 → ℤ
  | none => T.convert 0
  | some value => T.convert value.toUInt32.toNat

/-- The ring holds what waits in the queue. -/
structure Agrees (T : IntType) (first count : ℕ) (s : Session) (f : Fifo) : Prop where
  head : s.queue.head.toNat = count
  tail : s.reader.tail.toNat + f.pending.length = count
  holds : Holds slotOf s.queue.buf s.reader.tail.toNat (f.pending.map UInt64.toUInt32)
  popped : s.popped = f.popped.map fun o => some (observed T o)
  taken : s.reader.tail.toNat = first + (f.popped.filter Option.isSome).length

/-- Positions closer than the length of the buffer have different slots. -/
theorem slotOf_ne {p q : ℕ} (before : p < q) (close : q < p + bufSize) : slotOf p ≠ slotOf q := by
  intro same
  have slots : p % bufSize = q % bufSize := congrArg Fin.val same
  unfold bufSize shmSize at slots close
  omega

section Step

variable {T : IntType} {first count : ℕ} {s : Session} {f : Fifo}

theorem Agrees.push (agrees : Agrees T first count s f) (few : count + 1 < 2 ^ 32)
    (near : f.pending.length < bufSize) (value : UInt64) :
    Agrees T first (count + 1) (s.step T (.push value)) (f.step (.push value)) := by
  obtain ⟨head, tail, holds, popped, taken⟩ := agrees
  refine ⟨?_, ?_, ?_, popped, taken⟩
  · simp only [Session.step, ShmQueue.push, head]
    exact UInt32.toNat_ofNat_of_lt' few
  · simp only [Session.step, Fifo.step, List.length_append, List.length_singleton]
    omega
  · have place : s.queue.head.toNat =
        s.reader.tail.toNat + (f.pending.map UInt64.toUInt32).length := by
      rw [head, List.length_map, tail]
    simp only [Session.step, ShmQueue.push, Fifo.step, List.map_append, List.map_singleton, place]
    refine holds.write _ fun i inside => slotOf_ne (by omega) ?_
    rw [List.length_map] at inside ⊢
    omega

theorem Agrees.pop (agrees : Agrees T first count s f) (few : count < 2 ^ 32) :
    Agrees T first count (s.step T .pop) (f.step .pop) := by
  obtain ⟨head, tail, holds, popped, taken⟩ := agrees
  obtain ⟨pending, values⟩ := f
  cases pending with
  | nil =>
      have caught : s.reader.tail = s.queue.head := by
        rw [← UInt32.toNat_inj, head]
        simpa using tail
      have returned : s.reader.pop T s.queue = (some (T.convert 0), s.reader) := if_pos caught
      simp only [Session.step, Fifo.step, returned]
      exact ⟨head, tail, holds, by simp [popped, observed], by simpa using taken⟩
  | cons value rest =>
      rw [List.length_cons] at tail
      have behind : s.reader.tail ≠ s.queue.head := by
        rw [Ne, ← UInt32.toNat_inj, head]
        omega
      have word : s.queue.buf (slotOf s.reader.tail.toNat) = value.toUInt32 := holds.head
      have next : (s.reader.tail + 1).toNat = s.reader.tail.toNat + 1 := by
        rw [UInt32.toNat_add, UInt32.toNat_one]
        omega
      have returned : s.reader.pop T s.queue =
          (some (observed T (some value)), ⟨s.reader.tail + 1⟩) := by
        rw [ShmReader.pop, if_neg behind, word]
        rfl
      simp only [Session.step, Fifo.step, returned]
      refine ⟨head, ?_, ?_, by simp [popped], ?_⟩
      · simp only [next]
        omega
      · simp only [next]
        exact holds.tail
      · simp only [next, taken, List.filter_append, List.length_append]
        rfl

end Step

/-- Along a run that keeps up, the ring and the queue agree. -/
theorem Agrees.run {T : IntType} {first : ℕ} {ops : List Op} {count : ℕ} {s : Session} {f : Fifo}
    (agrees : Agrees T first count s f) (few : count + (pushed ops).length < 2 ^ 32)
    (near : KeepsUp f ops) :
    Agrees T first (count + (pushed ops).length) (ops.foldl (Session.step T) s)
      (ops.foldl Fifo.step f) := by
  induction ops generalizing count s f with
  | nil => exact agrees
  | cons op ops ih =>
      obtain ⟨-, later⟩ := near
      cases op with
      | push value =>
          simp only [pushed, List.length_cons] at few ⊢
          have room : (f.step (.push value)).pending.length ≤ bufSize := by
            cases ops with
            | nil => exact later
            | cons _ _ => exact later.1
          rw [Fifo.step, List.length_append, List.length_singleton] at room
          have step := agrees.push (by omega) room value
          rw [Nat.add_comm _ 1, ← Nat.add_assoc] at few ⊢
          exact ih step few later
      | pop =>
          simp only [pushed] at few ⊢
          exact ih (agrees.pop (by omega)) few later

theorem head_after {earlier : List UInt64} (few : earlier.length < 2 ^ 32) :
    (ShmQueue.after earlier).head.toNat = earlier.length := by
  induction earlier using List.reverseRecOn with
  | nil => rfl
  | append_singleton earlier value ih =>
      rw [List.length_append, List.length_singleton] at few ⊢
      have before := ih (by omega)
      rw [ShmQueue.after] at before
      rw [ShmQueue.after, List.foldl_append, List.foldl_cons, List.foldl_nil, ShmQueue.push, before]
      exact UInt32.toNat_ofNat_of_lt' few

/-- **The words come out in the order in which they went in.** -/
theorem session_agrees (T : IntType) {earlier : List UInt64} {ops : List Op}
    (few : earlier.length + (pushed ops).length < 2 ^ 32) (near : KeepsUp {} ops) :
    Agrees T earlier.length (earlier.length + (pushed ops).length) (session T earlier ops)
      (Fifo.run ops) := by
  have head : (ShmQueue.after earlier).head.toNat = earlier.length := head_after (by omega)
  exact Agrees.run ⟨head, head, .nil, rfl, head⟩ few near

/-! ## A queue or not -/

theorem same_observed_iff {T : IntType} {o : Option UInt64} :
    Same (some (observed T o)) o ↔ ∃ value, o = some value ∧ Survives T value := by
  cases o with
  | none => simp [Same]
  | some value => simp [Same, observed, Survives]

/-- **A run is one of a queue exactly when no `pop` finds nothing and every value that is popped
survives.** -/
theorem fifo_iff (T : IntType) {earlier : List UInt64} {ops : List Op}
    (few : earlier.length + (pushed ops).length < 2 ^ 32) (near : KeepsUp {} ops) :
    FifoOk T earlier ops ↔
      none ∉ (Fifo.run ops).popped ∧ ∀ value, some value ∈ (Fifo.run ops).popped →
        Survives T value := by
  have agrees := session_agrees T few near
  have values : List.Forall₂ Same (session T earlier ops).popped (Fifo.run ops).popped ↔
      ∀ o ∈ (Fifo.run ops).popped, ∃ value, o = some value ∧ Survives T value := by
    rw [agrees.popped, List.forall₂_map_left_iff, List.forall₂_same]
    exact forall₂_congr fun o _ => same_observed_iff
  have tail : (session T earlier ops).reader.tail = (ShmQueue.after earlier).reader.tail +
      .ofNat ((Fifo.run ops).popped.filter Option.isSome).length := by
    have bound : (session T earlier ops).reader.tail.toNat < 2 ^ 32 := UInt32.toNat_lt _
    have taken := agrees.taken
    rw [← UInt32.toNat_inj, UInt32.toNat_add, ShmQueue.reader, head_after (by omega),
      UInt32.toNat_ofNat_of_lt' (by simp only [UInt32.size]; omega), ← taken,
      Nat.mod_eq_of_lt bound]
  constructor
  · intro ok
    have each := values.1 ok.values
    constructor
    · intro empty
      obtain ⟨value, same, -⟩ := each none empty
      cases same
    · intro value returned
      obtain ⟨value', same, survives⟩ := each _ returned
      exact Option.some.inj same ▸ survives
  · rintro ⟨full, survive⟩
    refine ⟨values.2 ?_, tail⟩
    intro o returned
    cases o with
    | none => exact absurd returned full
    | some value => exact ⟨value, rfl, survive value returned⟩

/-- What survives in an unsigned type is what fits both the type and the buffer. -/
theorem survives_unsigned {width : ℕ} {positive : 0 < width} {value : UInt64} :
    Survives (.integer false width positive) value ↔ value.toNat < 2 ^ min width 32 := by
  have kept : ((value.toUInt32.toNat : ℤ) % 2 ^ width % 2 ^ 64) =
      ((value.toNat % 2 ^ min width 32 : ℕ) : ℤ) := by
    have small : value.toNat % 2 ^ min width 32 < 2 ^ 64 :=
      (Nat.mod_lt _ (by positivity)).trans_le
        (Nat.pow_le_pow_right (by norm_num) ((min_le_right _ _).trans (by norm_num)))
    have twice : value.toNat % 2 ^ 32 % 2 ^ width = value.toNat % 2 ^ min width 32 := by
      rcases le_total width 32 with narrow | wide
      · rw [min_eq_left narrow, Nat.mod_mod_of_dvd _ (pow_dvd_pow 2 narrow)]
      · rw [min_eq_right wide]
        exact Nat.mod_eq_of_lt ((Nat.mod_lt _ (by norm_num)).trans_le
          (Nat.pow_le_pow_right (by norm_num) wide))
    rw [UInt64.toNat_toUInt32]
    norm_cast
    rw [twice, Nat.mod_eq_of_lt small]
  rw [Survives, IntType.convert, kept, Nat.cast_inj]
  exact ⟨fun same => same ▸ Nat.mod_lt _ (by positivity), Nat.mod_eq_of_lt⟩

/-- `uint64_t`. -/
def uint64 : IntType := .integer false 64 (by decide)

theorem fifo_iff_sample :
    FifoOk uint64 [7] [.push 1, .push 2, .pop, .push 3, .pop, .pop] := by
  refine (fifo_iff uint64 (by decide) (by decide)).2 ⟨by decide, ?_⟩
  intro value returned
  have among : value = 1 ∨ value = 2 ∨ value = 3 := by simpa [Fifo.run, Fifo.step] using returned
  rcases among with rfl | rfl | rfl <;> exact survives_unsigned.2 (by decide)

/-- A `pop` that finds nothing returns a zero, and so does one for the value `2 ^ 32`. -/
theorem queue_returns_zero :
    (session uint64 [] [.pop]).popped = [some 0] ∧ (Fifo.run [.pop]).popped = [none] ∧
      ¬ FifoOk uint64 [] [.pop] ∧
      (session uint64 [] [.push 4294967296, .pop]).popped = [some 0] ∧
        (Fifo.run [.push 4294967296, .pop]).popped = [some 4294967296] ∧
          ¬ FifoOk uint64 [] [.push 4294967296, .pop] := by
  have empty : (session uint64 [] [.pop]).popped = [some 0] := by decide
  have cut : (session uint64 [] [.push 4294967296, .pop]).popped = [some 0] := by decide
  refine ⟨empty, rfl, fun ok => ?_, cut, rfl, fun ok => ?_⟩
  · have values := ok.values
    rw [empty] at values
    cases values with
    | cons same _ => exact same
  · have values := ok.values
    rw [cut] at values
    cases values with
    | cons same _ =>
        have equal : (0 : ℤ) % 2 ^ 64 = ((4294967296 : UInt64).toNat : ℤ) := same
        exact absurd equal (by decide)

/-! ## When the counts wrap -/

/-- The slot of a position that is counted without wrapping. -/
def slot (position : ℕ) : Fin bufSize := slotOf (position % 2 ^ 32)

/-- One push for each value. -/
def pushAll (q : ShmQueue) (values : List UInt32) : ShmQueue :=
  values.foldl (fun q value => q.push value.toUInt64) q

/-- What this many calls of `pop` return. -/
def popAll (T : IntType) (q : ShmQueue) : ℕ → ShmReader → List (Option ℤ)
  | 0, _ => []
  | count + 1, r => (r.pop T q).1 :: popAll T q count (r.pop T q).2

/-- Whatever the buffer holds before, that many values that are pushed are popped again. -/
def ComesBack (T : IntType) (h : UInt32) (d : ℕ) : Prop :=
  ∀ (buf : Fin bufSize → UInt32) (values : List UInt32), values.length = d →
    popAll T (pushAll ⟨h, buf⟩ values) d ⟨h⟩ =
      values.map fun value => some (T.convert value.toNat)

/-- The slots of the positions from `h` on are different. -/
def SlotsDistinct (h : UInt32) (d : ℕ) : Prop :=
  ∀ i < d, ∀ j < d,
    (h.toNat + i) % 2 ^ 32 % bufSize = (h.toNat + j) % 2 ^ 32 % bufSize → i = j

theorem slot_eq_iff {p q : ℕ} : slot p = slot q ↔ p % 2 ^ 32 % bufSize = q % 2 ^ 32 % bufSize :=
  Fin.ext_iff

/-- The pushes write one slot after the other. -/
theorem pushAll_eq (values : List UInt32) (position : ℕ) (buf : Fin bufSize → UInt32) :
    pushAll ⟨.ofNat position, buf⟩ values =
      ⟨.ofNat (position + values.length), writeAll slot buf position values⟩ := by
  induction values generalizing position buf with
  | nil => rfl
  | cons value values ih =>
      have idx : (UInt32.ofNat position).toNat = position % 2 ^ 32 := UInt32.toNat_ofNat'
      have counted : UInt32.ofNat (position % 2 ^ 32 + 1) = UInt32.ofNat (position + 1) := by
        rw [← UInt32.toNat_inj, UInt32.toNat_ofNat', UInt32.toNat_ofNat', Nat.mod_add_mod]
      have first : (⟨.ofNat position, buf⟩ : ShmQueue).push value.toUInt64 =
          ⟨.ofNat (position + 1), Function.update buf (slot position) value⟩ := by
        simp only [ShmQueue.push, idx, counted, slot, UInt32.toUInt32_toUInt64]
      have rest := ih (position + 1) (Function.update buf (slot position) value)
      rw [pushAll, List.foldl_cons, first]
      rw [pushAll] at rest
      rw [rest, writeAll, List.length_cons, Nat.add_right_comm, Nat.add_assoc]

/-- The pops read one slot after the other, up to the writer. -/
theorem popAll_eq (T : IntType) {q : ShmQueue} {count position : ℕ} (short : count ≤ bufSize)
    (head : q.head = .ofNat (position + count)) :
    popAll T q count ⟨.ofNat position⟩ =
      (List.range count).map fun i => some (T.convert (q.buf (slot (position + i))).toNat) := by
  induction count generalizing position with
  | zero => rfl
  | succ count ih =>
      have idx : (UInt32.ofNat position).toNat = position % 2 ^ 32 := UInt32.toNat_ofNat'
      have behind : UInt32.ofNat position ≠ q.head := by
        rw [head, Ne, ← UInt32.toNat_inj, UInt32.toNat_ofNat', UInt32.toNat_ofNat']
        unfold bufSize shmSize at short
        omega
      have next : UInt32.ofNat position + 1 = UInt32.ofNat (position + 1) :=
        (UInt32.ofNat_add position 1).symm
      have returned : (⟨.ofNat position⟩ : ShmReader).pop T q =
          (some (T.convert (q.buf (slot position)).toNat), ⟨.ofNat (position + 1)⟩) := by
        rw [ShmReader.pop, if_neg behind, idx, next, slot]
      have shift : position + 1 + count = position + (count + 1) := by omega
      rw [popAll, returned, ih (by omega) (by rw [head, shift]), List.range_succ_eq_map,
        List.map_cons, List.map_map]
      refine congrArg _ (List.map_congr_left fun i _ => ?_)
      rw [Function.comp_apply, Nat.succ_eq_add_one, Nat.add_right_comm, Nat.add_assoc]

/-- Values come back exactly when no slot is used twice. -/
theorem comesBack_iff (T : IntType) (h : UInt32) {d : ℕ} (within : d ≤ bufSize) :
    ComesBack T h d ↔ SlotsDistinct h d := by
  have start : h = .ofNat h.toNat := UInt32.ofNat_toNat.symm
  have reads : ∀ (buf : Fin bufSize → UInt32) (values : List UInt32), values.length = d →
      popAll T (pushAll ⟨h, buf⟩ values) d ⟨h⟩ = (List.range d).map fun i =>
        some (T.convert (writeAll slot buf h.toNat values (slot (h.toNat + i))).toNat) := by
    intro buf values length
    have written := pushAll_eq values h.toNat buf
    rw [← start, length] at written
    have read := popAll_eq T within (congrArg ShmQueue.head written)
    rw [← start] at read
    rw [read, written]
  constructor
  · intro returns i inside j inside' same
    by_contra apart
    have collides : ∀ i j, i < j → j < d → slot (h.toNat + i) ≠ slot (h.toNat + j) := by
      intro i j before inside again
      obtain ⟨values, length, lost, kept⟩ :=
        exists_lost before inside again (fun _ => (0 : UInt32)) 1 0
      have back := returns (fun _ => 0) values length
      rw [reads _ values length] at back
      have here := congrArg (·[i]?) back
      simp only [List.getElem?_map, lost, List.getElem?_range (before.trans inside),
        Option.map_some, kept, Option.some.injEq] at here
      exact T.convert_zero_ne_one here.symm
    rcases Nat.lt_or_gt_of_ne apart with before | after
    · exact collides i j before inside' (slot_eq_iff.2 same)
    · exact collides j i after inside (slot_eq_iff.2 same.symm)
  · intro distinct buf values length
    have holds : Holds slot (writeAll slot buf h.toNat values) h.toNat values := by
      refine holds_writeAll ?_
      rw [length]
      exact fun i inside j inside' same => distinct i inside j inside' (slot_eq_iff.1 same)
    rw [reads buf values length]
    apply List.ext_getElem (by simp [length])
    intro i inside inside'
    rw [List.length_map] at inside'
    have here := holds i _ (List.getElem?_eq_getElem inside')
    simp [here]

/-- `2 ^ 32` leaves the rest 256. So the positions before the wrap have the slots up to 255, and
those after it the slots from 0 on. -/
theorem slotsDistinct_iff (h : UInt32) {d : ℕ} (within : d ≤ bufSize) :
    SlotsDistinct h d ↔ h.toNat + d ≤ 2 ^ 32 ∨ d ≤ 256 := by
  have bound : h.toNat < 2 ^ 32 := h.toNat_lt
  unfold SlotsDistinct
  unfold bufSize shmSize at within ⊢
  generalize h.toNat = position at bound ⊢
  constructor
  · intro distinct
    by_contra neither
    rw [not_or] at neither
    obtain ⟨wraps, many⟩ := neither
    -- The positions 256 apart, one before the wrap and one after it, have the same slot.
    by_cases early : position + 256 ≤ 2 ^ 32
    · have same := distinct (2 ^ 32 - position - 256) (by omega) (2 ^ 32 - position) (by omega)
        (by omega)
      omega
    · have same := distinct 0 (by omega) 256 (by omega) (by omega)
      omega
  · have wrapped : ∀ i < d, position + i < 2 ^ 32 ∧ (position + i) % 2 ^ 32 = position + i ∨
        2 ^ 32 ≤ position + i ∧ (position + i) % 2 ^ 32 = position + i - 2 ^ 32 := by
      intro i inside
      omega
    intro short i inside j inside' same
    rcases wrapped i inside with ⟨before, at_i⟩ | ⟨after, at_i⟩ <;>
      rcases wrapped j inside' with ⟨before', at_j⟩ | ⟨after', at_j⟩ <;>
      rw [at_i, at_j] at same <;> omega

/-- **Values come back exactly when the counts do not wrap or there are at most 256 of them**, and
exactly then their slots are different. -/
theorem wrap_iff (T : IntType) (h : UInt32) {d : ℕ} (within : d ≤ bufSize) :
    (ComesBack T h d ↔ h.toNat + d ≤ 2 ^ 32 ∨ d ≤ 256) ∧
      (SlotsDistinct h d ↔ h.toNat + d ≤ 2 ^ 32 ∨ d ≤ 256) :=
  ⟨(comesBack_iff T h within).trans (slotsDistinct_iff h within), slotsDistinct_iff h within⟩

theorem wrap_iff_sample : ComesBack uint64 (.ofNat (2 ^ 32 - 1)) 256 :=
  ((wrap_iff uint64 (.ofNat (2 ^ 32 - 1)) (by decide)).1).2 (.inr le_rfl)

/-- One push before the wrap and 256 after it: the first value is gone, and the last one comes out
in its place. -/
theorem first_value_overwritten :
    popAll uint64
        (pushAll ⟨.ofNat (2 ^ 32 - 1), fun _ => 0⟩ ((List.range 257).map UInt32.ofNat)) 1
        ⟨.ofNat (2 ^ 32 - 1)⟩ = [some 256] ∧
      ¬ ComesBack uint64 (.ofNat (2 ^ 32 - 1)) 257 ∧
        ¬ SlotsDistinct (.ofNat (2 ^ 32 - 1)) 257 := by
  have overflows : ¬ ((UInt32.ofNat (2 ^ 32 - 1)).toNat + 257 ≤ 2 ^ 32 ∨ 257 ≤ 256) := by decide
  refine ⟨by decide +kernel, fun returns => overflows ?_, fun distinct => overflows ?_⟩
  · exact (slotsDistinct_iff _ (by decide)).1 ((comesBack_iff uint64 _ (by decide)).1 returns)
  · exact (slotsDistinct_iff _ (by decide)).1 distinct

end Enuwatch.Shm

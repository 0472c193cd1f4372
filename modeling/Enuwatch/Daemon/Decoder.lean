import Enuwatch.Daemon.State
import Enuwatch.Lib.Transducer

/-!
# What a stream means

The decoder is the abstract counterpart of a connection. It is fed the bytes of a stream
one at a time and knows nothing of wake-ups, buffers or counters: it is collecting a header,
a path or the contents of a file, and when the last byte of one of these is in, it emits the
file system calls that the stream asks for at that point and goes on.

The state after a stream and the calls it asks for are functions of the bytes alone
(`phaseAfter`, `issuedAfter`). That the daemon agrees with them, however the stream reaches
it, is the subject of the modules that follow.
-/

set_option autoImplicit false

namespace Enuwatch.Daemon

open Enuwatch.Lib

/-- A call as the stream determines it. -/
structure Issued where
  seq : UInt32
  op : FsOp
deriving DecidableEq, Repr

/-- What is being collected: a header, the path after it, or the contents after both. -/
inductive Phase where
  | header (got : Bytes)
  | path (hdr got : Bytes)
  | payload (hdr path got : Bytes)
deriving DecidableEq, Repr

/-- The sizes and the type a header announces. -/
abbrev pathLen (hdr : Bytes) : ℕ := (DataMessage.decode hdr).pathLen.toNat
abbrev fsize (hdr : Bytes) : ℕ := (DataMessage.decode hdr).fsize.toNat
abbrev isRegular (hdr : Bytes) : Prop := (DataMessage.decode hdr).ftype = FileType.regular.code

/-- The calls that open the transfer of a regular file. -/
def opening (hdr : Bytes) : List Issued :=
  let seq := (DataMessage.decode hdr).seq
  ⟨seq, .mkstemp⟩ :: ⟨seq, .ftruncate (fsize hdr)⟩ ::
    if 0 < fsize hdr then [⟨seq, .mmap (fsize hdr)⟩] else []

namespace Phase

/-- The number of bytes still missing. -/
def need : Phase → ℕ
  | .header got => DataMessage.size - got.length
  | .path hdr got => pathLen hdr - got.length
  | .payload hdr _ got => fsize hdr - got.length

def extend : Phase → Bytes → Phase
  | .header got, block => .header (got ++ block)
  | .path hdr got, block => .path hdr (got ++ block)
  | .payload hdr dest got, block => .payload hdr dest (got ++ block)

/-- Complete contents are published. -/
def settlePayload (hdr dest got : Bytes) : Phase × List Issued :=
  if got.length < fsize hdr then (.payload hdr dest got, [])
  else (.header [], [⟨(DataMessage.decode hdr).seq, .rename dest got⟩])

/-- A complete path opens a transfer or makes a directory. -/
def settlePath (hdr got : Bytes) : Phase × List Issued :=
  if got.length < pathLen hdr then (.path hdr got, [])
  else if isRegular hdr then
    ((settlePayload hdr got []).1, opening hdr ++ (settlePayload hdr got []).2)
  else (.header [], [⟨(DataMessage.decode hdr).seq, .mkdir got 0⟩])

/-- Act on everything that is complete. -/
def settle : Phase → Phase × List Issued
  | .header got => if got.length < DataMessage.size then (.header got, []) else settlePath got []
  | .path hdr got => settlePath hdr got
  | .payload hdr dest got => settlePayload hdr dest got

theorem need_settlePayload (hdr dest got : Bytes) : (settlePayload hdr dest got).1.need ≠ 0 := by
  unfold settlePayload
  split
  · simp only [need]
    omega
  · simp [need, DataMessage.size]

theorem need_settlePath (hdr got : Bytes) : (settlePath hdr got).1.need ≠ 0 := by
  unfold settlePath
  split
  · simp only [need]
    omega
  · split
    · exact need_settlePayload hdr got []
    · simp [need, DataMessage.size]

end Phase

/-- The decoder. -/
def decoder : Collector Phase UInt8 Issued where
  need := Phase.need
  extend := Phase.extend
  settle := Phase.settle
  extend_nil p := by cases p <;> simp [Phase.extend]
  extend_append p first second := by cases p <;> simp [Phase.extend]
  need_extend p block := by
    cases p <;> simp only [Phase.extend, Phase.need, List.length_append] <;> omega
  settle_of_need p missing := by
    cases p with
    | header got =>
        have short : got.length < DataMessage.size := by
          simp only [Phase.need] at missing
          omega
        simp only [Phase.settle, if_pos short]
    | path hdr got =>
        have short : got.length < pathLen hdr := by
          simp only [Phase.need] at missing
          omega
        simp only [Phase.settle, Phase.settlePath, if_pos short]
    | payload hdr path got =>
        have short : got.length < fsize hdr := by
          simp only [Phase.need] at missing
          omega
        simp only [Phase.settle, Phase.settlePayload, if_pos short]
  need_settle p := by
    cases p with
    | header got =>
        simp only [Phase.settle]
        split
        · simp only [Phase.need]
          omega
        · exact Phase.need_settlePath got []
    | path hdr got => exact Phase.need_settlePath hdr got
    | payload hdr path got => exact Phase.need_settlePayload hdr path got

/-- What is being collected after a stream. -/
def phaseAfter (stream : Bytes) : Phase := decoder.transducer.after (.header []) stream

/-- The calls a stream asks for. -/
def issuedAfter (stream : Bytes) : List Issued := decoder.transducer.emitted (.header []) stream

@[simp] theorem phaseAfter_nil : phaseAfter [] = .header [] := rfl

@[simp] theorem issuedAfter_nil : issuedAfter [] = [] := rfl

theorem need_phaseAfter (stream : Bytes) : (phaseAfter stream).need ≠ 0 :=
  decoder.need_after (by decide) stream

theorem phaseAfter_append (first second : Bytes) :
    phaseAfter (first ++ second) = decoder.transducer.after (phaseAfter first) second :=
  decoder.transducer.after_append _ _ _

theorem issuedAfter_append (first second : Bytes) :
    issuedAfter (first ++ second) =
      issuedAfter first ++ decoder.transducer.emitted (phaseAfter first) second :=
  decoder.transducer.emitted_append _ _ _

/-- What a stream has asked for, every longer stream has asked for. -/
theorem issuedAfter_isPrefix {first stream : Bytes} (isPrefix : first <+: stream) :
    issuedAfter first <+: issuedAfter stream :=
  decoder.transducer.emitted_isPrefix _ isPrefix

/-! ## Streams that have just completed something -/

/-- The stream stands at `p`: settling `p` gives the state after the stream, and `done` are
the calls it asked for before that. -/
def StandsAt (stream : Bytes) (p : Phase) (done : List Issued) : Prop :=
  phaseAfter stream = p.settle.1 ∧ issuedAfter stream = done ++ p.settle.2

namespace StandsAt

variable {stream : Bytes} {p : Phase} {done : List Issued}

theorem of_phaseAfter (stream : Bytes) :
    StandsAt stream (phaseAfter stream) (issuedAfter stream) := by
  have settled := decoder.settle_of_need _ (need_phaseAfter stream)
  exact ⟨congrArg Prod.fst settled.symm, by rw [show (phaseAfter stream).settle = _ from settled]; simp⟩

/-- When nothing is complete, standing at `p` is being at `p`. -/
theorem of_need (stands : StandsAt stream p done) (missing : p.need ≠ 0) :
    phaseAfter stream = p ∧ issuedAfter stream = done := by
  have settled : p.settle = (p, []) := decoder.settle_of_need p missing
  obtain ⟨phase, issued⟩ := stands
  rw [settled] at phase issued
  exact ⟨phase, by simpa using issued⟩

/-- A block that does not go past the goal. -/
theorem extend (stands : StandsAt stream p done) {block : Bytes} (fits : block.length ≤ p.need) :
    StandsAt (stream ++ block) (p.extend block) done := by
  obtain ⟨phase, issued⟩ := stands
  have after : _ = (Phase.settle (p.extend block)).1 := decoder.after_settle fits
  have emitted : _ = (Phase.settle (p.extend block)).2 := decoder.emitted_settle fits
  constructor
  · rw [phaseAfter_append, phase]
    exact after
  · rw [issuedAfter_append, phase, issued, List.append_assoc]
    exact congrArg (done ++ ·) emitted

theorem isPrefix (stands : StandsAt stream p done) : done <+: issuedAfter stream :=
  ⟨p.settle.2, stands.2.symm⟩

/-- A complete header is followed by its path. -/
theorem header_complete {hdr : Bytes} (stands : StandsAt stream (.header hdr) done)
    (complete : hdr.length = DataMessage.size) : StandsAt stream (.path hdr []) done := by
  simpa only [StandsAt, Phase.settle, complete, lt_irrefl, if_false] using stands

/-- A complete path of a regular file opens a transfer. -/
theorem path_regular {hdr path : Bytes} (stands : StandsAt stream (.path hdr path) done)
    (complete : path.length = pathLen hdr) (regular : isRegular hdr) :
    StandsAt stream (.payload hdr path []) (done ++ opening hdr) := by
  simpa only [StandsAt, Phase.settle, Phase.settlePath, complete, lt_irrefl, if_false,
    if_pos regular, List.append_assoc] using stands

/-- A complete path of anything else makes a directory. -/
theorem path_other {hdr path : Bytes} (stands : StandsAt stream (.path hdr path) done)
    (complete : path.length = pathLen hdr) (other : ¬ isRegular hdr) :
    StandsAt stream (.header []) (done ++ [⟨(DataMessage.decode hdr).seq, .mkdir path 0⟩]) := by
  simpa [StandsAt, Phase.settle, Phase.settlePath, complete, other, DataMessage.size] using stands

/-- Complete contents are published. -/
theorem payload_complete {hdr path got : Bytes}
    (stands : StandsAt stream (.payload hdr path got) done) (complete : got.length = fsize hdr) :
    StandsAt stream (.header []) (done ++ [⟨(DataMessage.decode hdr).seq, .rename path got⟩]) := by
  simpa [StandsAt, Phase.settle, Phase.settlePayload, complete, DataMessage.size] using stands

end StandsAt

end Enuwatch.Daemon

import Enuwatch.Daemon.RoundTrip

/-!
# Which permissions arrive

A header carries the permissions of its file, and the two calls that make something take a
mode. `state.perms = static_cast<mode_t>(state.perms)` assigns the field to itself, so the
mode of every `mkdir` is the zero the field was initialised with; `create_anonfile` ignores
its argument `mode`, so every temporary file has the mode that `mkstemp` gives it.

A message therefore arrives with its permissions exactly when they happen to be these
(`permissions_arrive`), on every connection of every run.
-/

set_option autoImplicit false

namespace Enuwatch.Daemon

open Enuwatch.Lib Enuwatch.Net

/-- The mode of what a call makes. `mkstemp` makes files that their owner can read and write. -/
def FsOp.mode : FsOp → Option ℕ
  | .mkstemp => some 0o600
  | .mkdir _ mode => some mode
  | _ => none

/-- The modes that the calls use, in order. -/
def modes (issued : List Issued) : List ℕ := issued.filterMap (·.op.mode)

namespace Message

/-- The permissions in the header of a message, converted to a `mode_t` of the given width. -/
def mode (bits : ℕ) (m : Message) : ℕ := (DataMessage.decode m.hdr).perms.toNat % 2 ^ bits

/-- The permissions that the daemon happens to get right. -/
def Lucky (bits : ℕ) (m : Message) : Prop :=
  m.mode bits = if isRegular m.hdr then 0o600 else 0

end Message

theorem modes_append (first second : List Issued) :
    modes (first ++ second) = modes first ++ modes second := List.filterMap_append ..

theorem modes_opening (hdr : Bytes) : modes (opening hdr) = [0o600] := by
  unfold opening
  split_ifs <;> rfl

/-- Each message uses exactly one mode. -/
theorem modes_issued (m : Message) :
    modes m.issued = [if isRegular m.hdr then 0o600 else 0] := by
  by_cases regular : isRegular m.hdr
  · rw [Message.issued, Message.op, if_pos regular, if_pos regular, if_pos regular, modes_append,
      modes_opening]
    rfl
  · rw [Message.issued, Message.op, if_neg regular, if_neg regular, if_neg regular]
    rfl

theorem modes_messages (ms : List Message) :
    modes (ms.flatMap Message.issued) = ms.map fun m => if isRegular m.hdr then 0o600 else 0 := by
  induction ms with
  | nil => rfl
  | cons m ms ih =>
      rw [List.flatMap_cons, modes_append, modes_issued, ih]
      rfl

/-- The modes that whole messages at the front of a stream use. -/
theorem modes_isPrefix {stream rest : Bytes} {ms : List Message}
    (split : stream = ms.flatMap Message.bytes ++ rest) :
    (ms.map fun m => if isRegular m.hdr then 0o600 else 0) <+: modes (issuedAfter stream) := by
  have front : ms.flatMap Message.bytes <+: stream := ⟨rest, split.symm⟩
  have issued := issuedAfter_isPrefix front
  rw [issuedAfter_messages] at issued
  rw [← modes_messages]
  exact issued.filterMap _

section Runs

variable {inherited : List Bool} {fs : Fs} {dmsg : DaemonInitMessage} {d : Server}

/-- **A message arrives with its permissions exactly when they are 0 for a directory and 0600
for a regular file.** The mode used for the `i`-th message of a connection is right exactly
then; and as long as no call has failed, all the modes used for the messages of a connection
are right exactly when this holds of all the messages. -/
theorem permissions_arrive (reachable : Reachable step (start inherited fs dmsg) d) (bits : ℕ)
    {k : ℕ} {ms : List Message} {rest : Bytes}
    (stream : d.world.received k = ms.flatMap Message.bytes ++ rest) :
    (∀ (i : ℕ) (m : Message) (mode : ℕ), ms[i]? = some m →
      (modes (issuedBy k d.world.calls))[i]? = some mode → (mode = m.mode bits ↔ m.Lucky bits)) ∧
    (Unfailed d.world → (ms.map (Message.mode bits) <+: modes (issuedBy k d.world.calls) ↔
      ∀ m ∈ ms, m.Lucky bits)) := by
  have invariant := reachable_invariant reachable
  have asked := modes_isPrefix stream
  constructor
  · intro i m mode here used
    have issued : modes (issuedBy k d.world.calls) <+: modes (issuedAfter (d.world.received k)) :=
      (invariant.prefixed k).filterMap _
    have first := List.prefix_iff_getElem?.1 issued i (List.getElem?_eq_some_iff.1 used).1
    have second := List.prefix_iff_getElem?.1 asked i
      (by simpa using (List.getElem?_eq_some_iff.1 here).1)
    obtain ⟨_, rfl⟩ := List.getElem?_eq_some_iff.1 used
    obtain ⟨_, rfl⟩ := List.getElem?_eq_some_iff.1 here
    rw [Message.Lucky, Option.some.inj (first.symm.trans second), List.getElem_map, eq_comm]
  · intro unfailed
    rw [invariant.complete unfailed k]
    constructor
    · intro arrive
      have same := (List.prefix_of_prefix_length_le arrive asked (by simp)).eq_of_length (by simp)
      exact List.map_inj_left.1 same
    · intro lucky
      rwa [List.map_congr_left lucky]

end Runs

/-- The message for a directory `a` with the given permissions. -/
def directoryMessage (perms : UInt32) : Message where
  hdr := DataMessage.encode ⟨0, 0⟩ { seq := 5, perms, ftype := 2, pathLen := 1, fsize := 0 }
  path := [97]
  contents := []
  whole := DataMessage.length_encode _ _
  named := by simp [pathLen, DataMessage.decode_encode]
  sized := by simp [isRegular, DataMessage.decode_encode, FileType.code]

/-- A connection is accepted, and the directory arrives. -/
def directoryInputs (perms : UInt32) : List Input :=
  sampleInputs.take 5 ++ [.round { reads := [.data (directoryMessage perms).hdr, .data [97]] }]

theorem permissions_arrive_sample :
    ∃ d, run step sampleStart (directoryInputs 0) = some d ∧ Unfailed d.world ∧
      (directoryMessage 0).Lucky 32 ∧
      [directoryMessage 0].map (Message.mode 32) <+: modes (issuedBy 0 d.world.calls) := by
  have facts : ∀ d ∈ run step sampleStart (directoryInputs 0), Unfailed d.world ∧
      d.world.received 0 = [directoryMessage 0].flatMap Message.bytes ++ [] := by
    unfold Unfailed
    decide +kernel
  obtain ⟨d, reaches⟩ : ∃ d, run step sampleStart (directoryInputs 0) = some d :=
    Option.isSome_iff_exists.1 (by decide +kernel)
  obtain ⟨unfailed, stream⟩ := facts d reaches
  have lucky : (directoryMessage 0).Lucky 32 := by
    unfold Message.Lucky
    decide +kernel
  have reachable : Reachable step (start [true, true, true] sampleFs ⟨50000, 1⟩) d :=
    ⟨directoryInputs 0, reaches⟩
  exact ⟨d, reaches, unfailed, lucky,
    ((permissions_arrive reachable 32 stream).2 unfailed).2 (by simpa using lucky)⟩

/-- A directory with the permissions `rwxr-xr-x` is made without any. -/
theorem permissions_lost :
    ∃ d, run step sampleStart (directoryInputs 0o755) = some d ∧ d.status = .running ∧
      d.world.received 0 = (directoryMessage 0o755).bytes ∧
      (directoryMessage 0o755).mode 32 = 0o755 ∧ modes (issuedBy 0 d.world.calls) = [0] := by
  have facts : ∀ d ∈ run step sampleStart (directoryInputs 0o755), d.status = .running ∧
      d.world.received 0 = (directoryMessage 0o755).bytes ∧
      (directoryMessage 0o755).mode 32 = 0o755 ∧ modes (issuedBy 0 d.world.calls) = [0] := by
    decide +kernel
  obtain ⟨d, reaches⟩ : ∃ d, run step sampleStart (directoryInputs 0o755) = some d :=
    Option.isSome_iff_exists.1 (by decide +kernel)
  exact ⟨d, reaches, facts d reaches⟩

end Enuwatch.Daemon

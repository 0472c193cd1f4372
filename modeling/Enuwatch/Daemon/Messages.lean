import Enuwatch.Daemon.Decoder

/-!
# Streams as messages

A message is a header, a path of the length the header announces and, for a regular file,
contents of the size it announces (`Message`). Messages one after another make a stream that
the decoder takes apart again: it asks for the calls of each message in turn and ends between
messages (`phaseAfter_messages`, `issuedAfter_messages`). Every stream is some messages
followed by the part of one that is still being collected (`exists_messages`), and that part
has asked for no `mkdir` and no `rename`. There is no other way to take a stream apart
(`Message.selfDelimiting`, `Phase.incomplete`).
-/

set_option autoImplicit false

namespace Enuwatch.Daemon

open Enuwatch.Lib

/-- A whole message. -/
structure Message where
  hdr : Bytes
  path : Bytes
  contents : Bytes
  whole : hdr.length = DataMessage.size
  named : path.length = pathLen hdr
  sized : contents.length = if isRegular hdr then fsize hdr else 0

namespace Message

/-- The message on the wire. -/
def bytes (m : Message) : Bytes := m.hdr ++ m.path ++ m.contents

/-- What the message asks for in the end. -/
def op (m : Message) : FsOp :=
  if isRegular m.hdr then .rename m.path m.contents else .mkdir m.path 0

def seq (m : Message) : UInt32 := (DataMessage.decode m.hdr).seq

/-- All the calls the message asks for. -/
def issued (m : Message) : List Issued :=
  (if isRegular m.hdr then opening m.hdr else []) ++ [⟨m.seq, m.op⟩]

end Message

/-- The bytes that are being collected, with what came before them in the same message. -/
def Phase.bytes : Phase → Bytes
  | .header got => got
  | .path hdr got => hdr ++ got
  | .payload hdr dest got => hdr ++ dest ++ got

/-- The calls that a message still being collected has asked for. -/
def Phase.pending : Phase → List Issued
  | .payload hdr _ _ => opening hdr
  | _ => []

/-- A message fed to a decoder that is between messages. -/
theorem StandsAt.message {stream : Bytes} {done : List Issued}
    (stands : StandsAt stream (.header []) done) (m : Message) :
    StandsAt (stream ++ m.bytes) (.header []) (done ++ m.issued) := by
  have hdrFits : m.hdr.length ≤ (Phase.header []).need := by simp [Phase.need, m.whole]
  have pathFits : m.path.length ≤ (Phase.path m.hdr []).need := by simp [Phase.need, m.named]
  have atHeader := stands.extend hdrFits
  have atPath := (atHeader.header_complete m.whole).extend pathFits
  have sized := m.sized
  by_cases regular : isRegular m.hdr
  · rw [if_pos regular] at sized
    have fits : m.contents.length ≤ (Phase.payload m.hdr m.path []).need := by
      simp [Phase.need, sized]
    have atPayload := (atPath.path_regular m.named regular).extend fits
    have finished := atPayload.payload_complete sized
    simpa [Message.bytes, Message.issued, Message.op, Message.seq, if_pos regular] using finished
  · rw [if_neg regular] at sized
    have finished := atPath.path_other m.named regular
    simpa [Message.bytes, Message.issued, Message.op, Message.seq, if_neg regular,
      List.eq_nil_of_length_eq_zero sized] using finished

theorem StandsAt.messages (ms : List Message) :
    StandsAt (ms.flatMap Message.bytes) (.header []) (ms.flatMap Message.issued) := by
  induction ms using List.reverseRecOn with
  | nil => exact StandsAt.of_phaseAfter []
  | append_singleton ms m ih => simpa using ih.message m

/-- After whole messages the decoder is between messages. -/
theorem phaseAfter_messages (ms : List Message) :
    phaseAfter (ms.flatMap Message.bytes) = .header [] :=
  ((StandsAt.messages ms).of_need (by decide)).1

/-- Whole messages ask for their calls in turn. -/
theorem issuedAfter_messages (ms : List Message) :
    issuedAfter (ms.flatMap Message.bytes) = ms.flatMap Message.issued :=
  ((StandsAt.messages ms).of_need (by decide)).2

/-! ## Every stream -/

/-- What a phase has collected fits together and is not more than was announced. -/
def Phase.Fits : Phase → Prop
  | .header got => got.length ≤ DataMessage.size
  | .path hdr got => hdr.length = DataMessage.size ∧ got.length ≤ pathLen hdr
  | .payload hdr dest got => hdr.length = DataMessage.size ∧ dest.length = pathLen hdr ∧
      isRegular hdr ∧ got.length ≤ fsize hdr

/-- The stream is whole messages followed by what phase `p` has collected. -/
structure Split (stream : Bytes) (p : Phase) (done : List Issued) (ms : List Message) : Prop where
  stream_eq : stream = ms.flatMap Message.bytes ++ p.bytes
  done_eq : done = ms.flatMap Message.issued ++ p.pending
  fits : p.Fits

namespace Split

variable {stream : Bytes} {p : Phase} {done : List Issued} {ms : List Message}

theorem extend (split : Split stream p done ms) {block : Bytes} (room : block.length ≤ p.need) :
    Split (stream ++ block) (p.extend block) done ms := by
  obtain ⟨rfl, rfl, fits⟩ := split
  cases p with
  | header got =>
      simp only [Phase.need, Phase.Fits] at room fits
      refine ⟨by simp [Phase.bytes, Phase.extend], rfl, ?_⟩
      simp only [Phase.extend, Phase.Fits, List.length_append]
      omega
  | path hdr got =>
      simp only [Phase.need, Phase.Fits] at room fits
      refine ⟨by simp [Phase.bytes, Phase.extend], rfl, fits.1, ?_⟩
      simp only [List.length_append]
      omega
  | payload hdr dest got =>
      simp only [Phase.need, Phase.Fits] at room fits
      refine ⟨by simp [Phase.bytes, Phase.extend], rfl, fits.1, fits.2.1, fits.2.2.1, ?_⟩
      simp only [List.length_append]
      omega

/-- A message is complete. -/
theorem message (split : Split stream p done ms) (m : Message) (bytes : p.bytes = m.bytes)
    (issued : p.pending ++ [⟨m.seq, m.op⟩] = m.issued) :
    Split stream (.header []) (done ++ [⟨m.seq, m.op⟩]) (ms ++ [m]) := by
  obtain ⟨rfl, rfl, -⟩ := split
  refine ⟨?_, ?_, Nat.zero_le _⟩
  · rw [bytes]
    simp [Phase.bytes]
  · simp [Phase.pending, ← issued]

theorem settlePayload {hdr dest got : Bytes} (split : Split stream (.payload hdr dest got) done ms) :
    ∃ ms, Split stream (Phase.settlePayload hdr dest got).1
      (done ++ (Phase.settlePayload hdr dest got).2) ms := by
  unfold Phase.settlePayload
  split_ifs with short
  · exact ⟨ms, by simpa using split⟩
  · obtain ⟨whole, named, regular, within⟩ := split.fits
    let m : Message := ⟨hdr, dest, got, whole, named, by rw [if_pos regular]; omega⟩
    have op : m.op = .rename dest got := if_pos regular
    have finished := split.message m rfl (by simp [Message.issued, Phase.pending, m, if_pos regular])
    rw [op] at finished
    exact ⟨_, finished⟩

theorem settlePath {hdr got : Bytes} (split : Split stream (.path hdr got) done ms) :
    ∃ ms, Split stream (Phase.settlePath hdr got).1 (done ++ (Phase.settlePath hdr got).2) ms := by
  unfold Phase.settlePath
  split_ifs with short regular
  · exact ⟨ms, by simpa using split⟩
  · obtain ⟨whole, within⟩ := split.fits
    have opened : Split stream (.payload hdr got []) (done ++ opening hdr) ms := by
      obtain ⟨rfl, rfl, -⟩ := split
      exact ⟨by simp [Phase.bytes], by simp [Phase.pending], whole, by omega, regular,
        Nat.zero_le _⟩
    simpa using opened.settlePayload
  · obtain ⟨whole, within⟩ := split.fits
    let m : Message := ⟨hdr, got, [], whole, by omega, by rw [if_neg regular]; rfl⟩
    have op : m.op = .mkdir got 0 := if_neg regular
    have finished := split.message m (by simp [Phase.bytes, Message.bytes, m])
      (by simp [Message.issued, Phase.pending, m, if_neg regular])
    rw [op] at finished
    exact ⟨_, finished⟩

theorem settle (split : Split stream p done ms) :
    ∃ ms, Split stream p.settle.1 (done ++ p.settle.2) ms := by
  cases p with
  | header got =>
      simp only [Phase.settle]
      split_ifs with short
      · exact ⟨ms, by simpa using split⟩
      · have within : got.length ≤ DataMessage.size := split.fits
        have next : Split stream (.path got []) done ms := by
          obtain ⟨rfl, rfl, -⟩ := split
          exact ⟨by simp [Phase.bytes], rfl, by omega, Nat.zero_le _⟩
        exact next.settlePath
  | path hdr got => exact split.settlePath
  | payload hdr dest got => exact split.settlePayload

end Split

/-! ## The calls that change destinations -/

/-- `mkdir` and `rename` act on the path of a message; the other calls do not. -/
def FsOp.isFinal : FsOp → Bool
  | .mkdir _ _ => true
  | .rename _ _ => true
  | _ => false

/-- The calls that act on the path of a message. -/
def finals (issued : List Issued) : List Issued := issued.filter (·.op.isFinal)

theorem finals_append (first second : List Issued) :
    finals (first ++ second) = finals first ++ finals second := List.filter_append ..

theorem finals_opening (hdr : Bytes) : finals (opening hdr) = [] := by
  unfold opening
  split_ifs <;> rfl

theorem finals_pending (p : Phase) : finals p.pending = [] := by
  cases p with
  | header => rfl
  | path => rfl
  | payload hdr => exact finals_opening hdr

theorem finals_issued (m : Message) : finals m.issued = [⟨m.seq, m.op⟩] := by
  by_cases regular : isRegular m.hdr
  · rw [Message.issued, Message.op, if_pos regular, if_pos regular, finals_append, finals_opening]
    rfl
  · rw [Message.issued, Message.op, if_neg regular, if_neg regular]
    rfl

/-- Each message has exactly one such call. -/
theorem finals_messages (ms : List Message) :
    finals (ms.flatMap Message.issued) = ms.map fun m => ⟨m.seq, m.op⟩ := by
  induction ms with
  | nil => rfl
  | cons m ms ih =>
      rw [List.flatMap_cons, finals_append, finals_issued, ih]
      rfl

/-- **Every stream is whole messages and the part of one that is being collected**; its calls
are those of the whole messages, and those that open the transfer if one is open. -/
theorem exists_messages (stream : Bytes) :
    ∃ ms, Split stream (phaseAfter stream) (issuedAfter stream) ms := by
  induction stream using List.reverseRecOn with
  | nil => exact ⟨[], rfl, rfl, Nat.zero_le _⟩
  | append_singleton stream b ih =>
      obtain ⟨ms, split⟩ := ih
      have room : [b].length ≤ (phaseAfter stream).need :=
        Nat.one_le_iff_ne_zero.2 (need_phaseAfter stream)
      have stands := (StandsAt.of_phaseAfter stream).extend room
      rw [stands.1, stands.2]
      exact (split.extend room).settle

/-- A message shows where it ends: its header has a fixed size and announces the rest. -/
theorem Message.selfDelimiting : SelfDelimiting Message.bytes := by
  rintro ⟨hdr, path, contents, whole, named, sized⟩ ⟨hdr', path', contents', whole', named', sized'⟩
    rest rest' same
  simp only [Message.bytes, List.append_assoc] at same
  obtain ⟨rfl, later⟩ := List.append_inj same (whole.trans whole'.symm)
  obtain ⟨rfl, last⟩ := List.append_inj later (named.trans named'.symm)
  obtain ⟨rfl, -⟩ := List.append_inj last (sized.trans sized'.symm)
  rfl

/-- What is being collected has no whole message. -/
theorem Phase.incomplete {p : Phase} (fits : p.Fits) (missing : p.need ≠ 0) :
    Incomplete Message.bytes p.bytes := by
  rintro ⟨hdr, path, contents, whole, named, sized⟩ ⟨rest, same⟩
  simp only [Message.bytes, List.append_assoc] at same
  cases p with
  | header got =>
      have length := congrArg List.length same
      simp only [Phase.bytes, Phase.need, List.length_append] at length missing
      omega
  | path hdr' got =>
      obtain ⟨rfl, later⟩ := List.append_inj same (whole.trans fits.1.symm)
      have length := congrArg List.length later
      simp only [Phase.need, List.length_append] at length missing
      omega
  | payload hdr' dest got =>
      obtain ⟨whole', named', regular, -⟩ := fits
      simp only [Phase.bytes, List.append_assoc] at same
      obtain ⟨rfl, later⟩ := List.append_inj same (whole.trans whole'.symm)
      obtain ⟨rfl, last⟩ := List.append_inj later (named.trans named'.symm)
      have length := congrArg List.length last
      rw [if_pos regular] at sized
      simp only [Phase.need, List.length_append] at length missing
      omega

/-- The calls of a message whose end is missing: those that open its transfer, once its path is
there. -/
def restIssued (rest : Bytes) : List Issued :=
  let hdr := rest.take DataMessage.size
  if DataMessage.size + pathLen hdr ≤ rest.length ∧ isRegular hdr then opening hdr else []

theorem Phase.pending_eq {p : Phase} (fits : p.Fits) (missing : p.need ≠ 0) :
    p.pending = restIssued p.bytes := by
  cases p with
  | header got =>
      have short : ¬ DataMessage.size + pathLen (got.take DataMessage.size) ≤ got.length := by
        simp only [Phase.need] at missing
        omega
      rw [restIssued, Phase.bytes, if_neg fun both => short both.1]
      rfl
  | path hdr got =>
      obtain ⟨whole, -⟩ := fits
      have front : (hdr ++ got).take DataMessage.size = hdr := List.take_left' whole
      have short : ¬ DataMessage.size + pathLen hdr ≤ (hdr ++ got).length := by
        simp only [Phase.need] at missing
        rw [List.length_append]
        omega
      rw [restIssued, Phase.bytes, front, if_neg fun both => short both.1]
      rfl
  | payload hdr dest got =>
      obtain ⟨whole, named, regular, -⟩ := fits
      have front : (hdr ++ dest ++ got).take DataMessage.size = hdr := by
        rw [List.append_assoc]
        exact List.take_left' whole
      have long : DataMessage.size + pathLen hdr ≤ (hdr ++ dest ++ got).length := by
        rw [List.length_append, List.length_append]
        omega
      rw [restIssued, Phase.bytes, front, if_pos ⟨long, regular⟩]
      rfl

/-- A message that is still being collected has not acted on its path. -/
theorem Split.finals_eq {stream : Bytes} {p : Phase} {done : List Issued} {ms : List Message}
    (split : Split stream p done ms) : finals done = ms.map fun m => ⟨m.seq, m.op⟩ := by
  rw [split.done_eq, finals_append, finals_messages, finals_pending, List.append_nil]

end Enuwatch.Daemon

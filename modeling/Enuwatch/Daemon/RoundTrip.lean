import Enuwatch.Daemon.Atomic
import Enuwatch.Sender

/-!
# Decoding undoes encoding

A successful call of `send_datamsg` writes a message (`Sent.message`). When the bytes that
successful calls wrote to a connection have all arrived, the daemon has issued, in order, one
`mkdir` or `rename` for each of the calls, and the connection is between messages
(`round_trip`). How the kernel cut the stream into reads and wake-ups, and what the other
connections did meanwhile, makes no difference.
-/

set_option autoImplicit false

namespace Enuwatch.Daemon

open Enuwatch.Lib Enuwatch.Net

/-- A call of `send_datamsg` that returned true. -/
structure Sent where
  call : SendCall
  result : SendRun
  ran : sendDatamsg call = some result
  sent : result.outcome = .returned true

namespace Sent

/-- The bytes the call wrote. -/
def bytes (s : Sent) : Bytes := s.result.written

/-- The path the call sent. -/
def path (s : Sent) : Bytes := s.call.relPath.getD []

/-- What the message of the call is for. -/
def op (s : Sent) : FsOp :=
  if s.call.info.ftype = .regular then .rename s.path s.call.contents else .mkdir s.path 0

theorem path_le (s : Sent) : s.path.length ≤ 65535 := by
  obtain ⟨relPath, named, short, -⟩ := sendDatamsg_sent s.ran s.sent
  simpa [path, named] using short

theorem bytes_eq (s : Sent) :
    s.bytes = (s.call.header s.path).encode s.call.pad ++ s.path ++ s.call.contents := by
  obtain ⟨relPath, named, -, written⟩ := sendDatamsg_sent s.ran s.sent
  rw [path, named]
  exact written

theorem isRegular_iff (s : Sent) :
    isRegular ((s.call.header s.path).encode s.call.pad) ↔ s.call.info.ftype = .regular := by
  rw [isRegular, DataMessage.decode_encode]
  exact FileType.code_eq_regular

/-- What the call wrote is a message. -/
def message (s : Sent) : Message where
  hdr := (s.call.header s.path).encode s.call.pad
  path := s.path
  contents := s.call.contents
  whole := DataMessage.length_encode _ _
  named := by
    have short := s.path_le
    simp only [pathLen, DataMessage.decode_encode, SendCall.header]
    rw [UInt16.toNat_ofNat_of_lt' (by simpa [UInt16.size] using Nat.lt_succ_of_le short)]
  sized := by
    by_cases regular : s.call.info.ftype = .regular
    · rw [if_pos (s.isRegular_iff.2 regular), SendCall.contents, if_pos regular, length_mapped]
      simp only [fsize, DataMessage.decode_encode, SendCall.header]
    · rw [if_neg (mt s.isRegular_iff.1 regular), SendCall.contents, if_neg regular]
      rfl

@[simp] theorem message_bytes (s : Sent) : s.message.bytes = s.bytes := s.bytes_eq.symm

@[simp] theorem message_seq (s : Sent) : s.message.seq = s.call.seq := by
  simp [Message.seq, message, DataMessage.decode_encode, SendCall.header]

@[simp] theorem message_op (s : Sent) : s.message.op = s.op := by
  unfold Message.op op
  exact if_congr s.isRegular_iff rfl rfl

end Sent

/-- Between messages: no byte of the next one has been stored. -/
def ConnectionState.Between (st : ConnectionState) : Prop :=
  st.progress = 0 ∧ (st.kind = .connected ∧ st.buf = [] ∨
    st.kind = .headerP1 ∧ st.buf = zeros DataMessage.size)

theorem Represents.between {fs : Fs} {st : ConnectionState}
    (state : Represents fs st (.header [])) : st.Between := by
  cases state with
  | connected kind progress goal buf => exact ⟨progress, .inl ⟨kind, buf⟩⟩
  | header kind fits progress goal buf => exact ⟨progress, .inr ⟨kind, buf⟩⟩

/-- **Decoding undoes encoding.** When everything that successful calls of `send_datamsg` wrote
to connection `k` has arrived, the daemon has issued exactly one `mkdir` or `rename` for each
call, in order and under its sequence number, and the connection is between messages. Each
`rename` publishes the contents that were sent: the transfer holds them, and so does the file
under the temporary name, unless a message named the temporary path of another transfer. -/
theorem round_trip {inherited : List Bool} {fs : Fs} {dmsg : DaemonInitMessage} {d : Server}
    (reachable : Reachable step (start inherited fs dmsg) d) (unfailed : Unfailed d.world)
    {k : ℕ} {sends : List Sent} (consumed : d.world.received k = sends.flatMap Sent.bytes) :
    finals (issuedBy k d.world.calls) = sends.map (fun s => ⟨s.call.seq, s.op⟩) ∧
    (Spared fs.cwd d.world.calls → ∀ call ∈ d.world.calls, ∀ path contents,
      call.op = .rename path contents → call.source = some contents) ∧
    ∀ x st, d.states.lookup x = some st → d.world.table.get x = some (.conn k) → st.Between := by
  have stream : d.world.received k = (sends.map Sent.message).flatMap Message.bytes := by
    simp [consumed, List.flatMap_map]
  refine ⟨?_, fun spared => (reachable_tidy reachable spared).sources, fun x st found conn => ?_⟩
  · rw [(reachable_invariant reachable).complete unfailed k, stream, issuedAfter_messages,
      finals_messages, List.map_map]
    simp [Function.comp_def]
  · have state := reachable_state reachable unfailed found conn
    rw [stream, phaseAfter_messages] at state
    exact state.between

/-- The file of the sample run, as a call of `send_datamsg`. -/
def sampleSent : Sent where
  call :=
    { seq := 5, info := { name := [97], perms := 0, ftype := .regular, fsize := 2 },
      relPath := some [97], file := some [1, 2], pad := ⟨0, 0⟩,
      writes := [.wrote 10, .retry, .wrote 14, .wrote 1, .wrote 2], oks := [true] }
  result := ⟨.returned true, sampleHeader ++ [97, 1, 2], [2]⟩
  ran := by decide +kernel
  sent := rfl

/-- The directories `b` and `c`. -/
def directorySent (second : Bool) : Sent where
  call :=
    { seq := if second then 6 else 7,
      info := { name := [if second then 99 else 98], perms := 0, ftype := .directory },
      relPath := some [if second then 99 else 98], file := none, pad := ⟨0, 0⟩,
      writes := [.wrote 24, .wrote 1], oks := [] }
  result :=
    ⟨.returned true, DataMessage.encode ⟨0, 0⟩ ⟨if second then 6 else 7, 0, 2, 1, 0⟩ ++
      [if second then 99 else 98], []⟩
  ran := by cases second <;> decide +kernel
  sent := rfl

/-- A file `d`. -/
def lateSent : Sent where
  call :=
    { seq := 8, info := { name := [100], perms := 0, ftype := .regular, fsize := 2 },
      relPath := some [100], file := some [3, 4], pad := ⟨0, 0⟩,
      writes := [.wrote 24, .wrote 1, .wrote 1, .wrote 1], oks := [true] }
  result := ⟨.returned true, DataMessage.encode ⟨0, 0⟩ ⟨8, 0, 1, 1, 2⟩ ++ [100, 3, 4], [2]⟩
  ran := by decide +kernel
  sent := rfl

/-- Two connections are accepted. The file `a` and the directory `b` arrive on the first one and the
directory `c` and the file `d` on the second, in turns; how the contents of `d` are read is left
open. -/
def busyInputs (contents : List SysRead) : List Input :=
  let header (s : Sent) : SysRead := .data (s.bytes.take DataMessage.size)
  [.poll [{ input := true }, { input := true }], .round {}, .round {}, .round {}, .round {},
    .poll [{}, {}, { input := true }, { input := true }], .round {}, .round {},
    .round { reads := [header sampleSent, .retry, .data [97], .data [1], .data [2]] },
    .round { reads := [header (directorySent true), .data [99]] },
    .poll [{}, {}, { input := true }, { input := true }], .round {}, .round {},
    .round { reads := [header (directorySent false), .data [98]] },
    .round { reads := [header lateSent, .data [100]] ++ contents }]

/-- Two messages on each of two connections. -/
theorem round_trip_sample :
    ∃ d, run step pairStart (busyInputs [.data [3], .data [4]]) = some d ∧ Unfailed d.world ∧
      d.world.received 0 = [sampleSent, directorySent false].flatMap Sent.bytes ∧
      finals (issuedBy 0 d.world.calls) = [⟨5, .rename [97] [1, 2]⟩, ⟨7, .mkdir [98] 0⟩] ∧
      d.world.received 1 = [directorySent true, lateSent].flatMap Sent.bytes ∧
      finals (issuedBy 1 d.world.calls) = [⟨6, .mkdir [99] 0⟩, ⟨8, .rename [100] [3, 4]⟩] := by
  have facts : ∀ d ∈ run step pairStart (busyInputs [.data [3], .data [4]]), Unfailed d.world ∧
      d.world.received 0 = [sampleSent, directorySent false].flatMap Sent.bytes ∧
      d.world.received 1 = [directorySent true, lateSent].flatMap Sent.bytes := by
    unfold Unfailed
    decide +kernel
  obtain ⟨d, reaches⟩ : ∃ d, run step pairStart (busyInputs [.data [3], .data [4]]) = some d :=
    Option.isSome_iff_exists.1 (by decide +kernel)
  obtain ⟨unfailed, first, second⟩ := facts d reaches
  have reachable : Reachable step (start [true, true, true] sampleFs ⟨50000, 2⟩) d := ⟨_, reaches⟩
  exact ⟨d, reaches, unfailed, first, (round_trip reachable unfailed first).1, second,
    (round_trip reachable unfailed second).1⟩

/-- **The bytes of a connection can be read in one way only.** They are some messages and a rest in
which no message is complete; no other messages and no other rest give the same bytes, and as long
as no call has failed the calls for the connection are those of these messages, one after the other,
and those of the rest. -/
theorem stream_divided {inherited : List Bool} {fs : Fs} {dmsg : DaemonInitMessage} {d : Server}
    (reachable : Reachable step (start inherited fs dmsg) d) (unfailed : Unfailed d.world) (k : ℕ) :
    ∃ (ms : List Message) (rest : Bytes), d.world.received k = ms.flatMap Message.bytes ++ rest ∧
      Incomplete Message.bytes rest ∧
      issuedBy k d.world.calls = ms.flatMap Message.issued ++ restIssued rest ∧
      ∀ (ms' : List Message) (rest' : Bytes),
        d.world.received k = ms'.flatMap Message.bytes ++ rest' →
          Incomplete Message.bytes rest' → ms' = ms ∧ rest' = rest := by
  obtain ⟨ms, split⟩ := exists_messages (d.world.received k)
  have incomplete := Phase.incomplete split.fits (need_phaseAfter _)
  refine ⟨ms, _, split.stream_eq, incomplete, ?_, fun ms' rest' stream incomplete' => ?_⟩
  · rw [(reachable_invariant reachable).complete unfailed k, split.done_eq,
      Phase.pending_eq split.fits (need_phaseAfter _)]
  · exact Message.selfDelimiting.unique incomplete' incomplete (stream.symm.trans split.stream_eq)

/-- The second byte of the file `d` has not arrived: its temporary file is there. -/
theorem stream_divided_sample :
    ∃ d rest, run step pairStart (busyInputs [.data [3], .zero]) = some d ∧
      d.world.received 0 =
        [sampleSent.message, (directorySent false).message].flatMap Message.bytes ∧
      issuedBy 0 d.world.calls = sampleSent.message.issued ++ (directorySent false).message.issued ∧
      d.world.received 1 = (directorySent true).message.bytes ++ rest ∧
      issuedBy 1 d.world.calls =
        [⟨6, .mkdir [99] 0⟩, ⟨8, .mkstemp⟩, ⟨8, .ftruncate 2⟩, ⟨8, .mmap 2⟩] := by
  let rest := lateSent.bytes.take 26
  have facts : ∀ d ∈ run step pairStart (busyInputs [.data [3], .zero]), Unfailed d.world ∧
      d.world.received 0 =
        [sampleSent.message, (directorySent false).message].flatMap Message.bytes ++ [] ∧
      d.world.received 1 = [(directorySent true).message].flatMap Message.bytes ++ rest := by
    unfold Unfailed
    decide +kernel
  obtain ⟨d, reaches⟩ : ∃ d, run step pairStart (busyInputs [.data [3], .zero]) = some d :=
    Option.isSome_iff_exists.1 (by decide +kernel)
  obtain ⟨unfailed, first, second⟩ := facts d reaches
  have reachable : Reachable step (start [true, true, true] sampleFs ⟨50000, 2⟩) d := ⟨_, reaches⟩
  have none_ : Incomplete Message.bytes [] :=
    Phase.incomplete (p := .header []) (Nat.zero_le _) (by decide)
  have cut : Incomplete Message.bytes rest :=
    Phase.incomplete (p := .payload (lateSent.bytes.take 24) [100] [3])
      ⟨by decide, by decide, by decide, by decide⟩ (by decide)
  obtain ⟨ms, tail, -, -, acted, unique⟩ := stream_divided reachable unfailed 0
  obtain ⟨ms', tail', -, -, acted', unique'⟩ := stream_divided reachable unfailed 1
  obtain ⟨rfl, rfl⟩ := unique _ _ first none_
  obtain ⟨rfl, rfl⟩ := unique' _ _ second cut
  refine ⟨d, rest, reaches, by simpa using first, ?_, by simpa using second, ?_⟩
  · rw [acted]
    decide
  · rw [acted']
    decide

/-! ## Fragmentation -/

/-- What a connection state says about its message. -/
structure View where
  kind : ConnectionKind
  progress : ℕ
  goal : ℕ
  /-- The header and the path, as far as they are allocated. -/
  header : Bytes
  payload : Bytes
deriving DecidableEq, Repr

/-- The view of a state; `Connected` is seen as `HeaderP1` at progress 0. -/
def ConnectionState.view (st : ConnectionState) (fs : Fs) : View where
  kind := (arm st).kind
  progress := st.progress
  goal := (arm st).goal
  header := (arm st).buf
  payload := if st.kind = .receiving then st.payload fs else []

/-- The view that a phase of the decoder prescribes. -/
def Phase.view : Phase → View
  | .header got =>
      ⟨.headerP1, got.length, DataMessage.size, got ++ zeros (DataMessage.size - got.length), []⟩
  | .path hdr got =>
      ⟨.headerP2, DataMessage.size + got.length, DataMessage.size + pathLen hdr,
        hdr ++ got ++ zeros (pathLen hdr - got.length), []⟩
  | .payload hdr dest got =>
      ⟨.receiving, got.length, fsize hdr, hdr ++ dest, got ++ zeros (fsize hdr - got.length)⟩

theorem Represents.view {fs : Fs} {st : ConnectionState} {p : Phase}
    (state : Represents fs st p) : st.view fs = p.view := by
  cases state with
  | connected kind progress goal buf =>
      simp [ConnectionState.view, arm, kind, progress, buf, Phase.view, resize_nil]
  | header kind fits progress goal buf =>
      simp [ConnectionState.view, arm, kind, progress, goal, buf, Phase.view]
  | path kind whole fits progress goal buf =>
      simp [ConnectionState.view, arm, kind, progress, goal, buf, Phase.view]
  | payload kind whole named regular fits progress goal buf path seq mapped =>
      have contents := (Represents.payload kind whole named regular fits progress goal buf path seq
        mapped).payload_eq
      simp [ConnectionState.view, arm, kind, progress, goal, buf, Phase.view, contents]

/-- **Fragmentation does not matter.** Two connections, of two runs of two daemons, that have
received the same bytes are in the same state, and the same calls were issued for them. If a
call has failed in one of the runs, it has issued the beginning of what the other has. -/
theorem fragmentation_irrelevant {inherited₁ inherited₂ : List Bool} {fs₁ fs₂ : Fs}
    {dmsg₁ dmsg₂ : DaemonInitMessage} {d₁ d₂ : Server}
    (reachable₁ : Reachable step (start inherited₁ fs₁ dmsg₁) d₁)
    (reachable₂ : Reachable step (start inherited₂ fs₂ dmsg₂) d₂) {k₁ k₂ : ℕ}
    (same : d₁.world.received k₁ = d₂.world.received k₂) :
    (issuedBy k₁ d₁.world.calls <+: issuedBy k₂ d₂.world.calls ∨
      issuedBy k₂ d₂.world.calls <+: issuedBy k₁ d₁.world.calls) ∧
    (Unfailed d₁.world → Unfailed d₂.world →
      issuedBy k₁ d₁.world.calls = issuedBy k₂ d₂.world.calls ∧
      ∀ x₁ st₁ x₂ st₂, d₁.states.lookup x₁ = some st₁ → d₁.world.table.get x₁ = some (.conn k₁) →
        d₂.states.lookup x₂ = some st₂ → d₂.world.table.get x₂ = some (.conn k₂) →
        st₁.view d₁.world.fs = st₂.view d₂.world.fs) := by
  have invariant₁ := reachable_invariant reachable₁
  have invariant₂ := reachable_invariant reachable₂
  refine ⟨?_, fun unfailed₁ unfailed₂ => ⟨?_, fun x₁ st₁ x₂ st₂ found₁ conn₁ found₂ conn₂ => ?_⟩⟩
  · have second := invariant₂.prefixed k₂
    rw [Prefixed, ← same] at second
    exact List.prefix_or_prefix_of_prefix (invariant₁.prefixed k₁) second
  · rw [invariant₁.complete unfailed₁ k₁, invariant₂.complete unfailed₂ k₂, same]
  · rw [(reachable_state reachable₁ unfailed₁ found₁ conn₁).view,
      (reachable_state reachable₂ unfailed₂ found₂ conn₂).view, same]

/-- The file of the sample run, in other pieces: a wake-up without data, and one that ends in
the middle of the header. -/
def fragmentedInputs : List Input :=
  [.poll [{ input := true }], .round {}, .round {}, .poll [{}, { input := true }], .round {},
    .round { reads := [.zero] }, .poll [{}, { input := true }], .round {},
    .round { reads := [.data (sampleHeader.take 10), .zero] }, .poll [{}, { input := true }],
    .round {}, .round { reads := [.data (sampleHeader.drop 10), .data [97], .retry, .data [1, 2]] }]

theorem fragmentation_irrelevant_sample :
    ∃ d₁ d₂, run step sampleStart sampleInputs = some d₁ ∧
      run step sampleStart fragmentedInputs = some d₂ ∧ issuedBy 0 d₁.world.calls ≠ [] ∧
      issuedBy 0 d₁.world.calls = issuedBy 0 d₂.world.calls := by
  have facts : ∀ d₁ ∈ run step sampleStart sampleInputs,
      ∀ d₂ ∈ run step sampleStart fragmentedInputs,
      d₁.world.received 0 = d₂.world.received 0 ∧ Unfailed d₁.world ∧ Unfailed d₂.world ∧
        issuedBy 0 d₁.world.calls ≠ [] := by
    unfold Unfailed
    decide +kernel
  obtain ⟨d₁, reaches₁⟩ : ∃ d, run step sampleStart sampleInputs = some d :=
    Option.isSome_iff_exists.1 (by decide +kernel)
  obtain ⟨d₂, reaches₂⟩ : ∃ d, run step sampleStart fragmentedInputs = some d :=
    Option.isSome_iff_exists.1 (by decide +kernel)
  obtain ⟨same, unfailed₁, unfailed₂, some⟩ := facts d₁ reaches₁ d₂ reaches₂
  have reachable₁ : Reachable step (start [true, true, true] sampleFs ⟨50000, 1⟩) d₁ :=
    ⟨sampleInputs, reaches₁⟩
  have reachable₂ : Reachable step (start [true, true, true] sampleFs ⟨50000, 1⟩) d₂ :=
    ⟨fragmentedInputs, reaches₂⟩
  have agree := fragmentation_irrelevant reachable₁ reachable₂ same
  exact ⟨d₁, d₂, reaches₁, reaches₂, some, (agree.2 unfailed₁ unfailed₂).1⟩

end Enuwatch.Daemon

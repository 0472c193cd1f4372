import Enuwatch.Lib.Pool
import Enuwatch.Net
import Enuwatch.Wire

/-!
# Sending one message

`send_datamsg` writes the header of a node, its path relative to the base, and for
a regular file its contents in chunks, checking the shared `ok` flag after each.

Everything the call learns from outside is an argument: the path `fs::relative`
computes, the file it maps, the answers to its writes and the values of `ok` it
loads. Any call writes the beginning of its own message, and one that returns true
has written it in full (`sendDatamsg_wire`).
-/

set_option autoImplicit false

namespace Enuwatch

open Enuwatch.Lib Enuwatch.Net

/-- `CHUNK_SIZE`. -/
def chunkSize : ℕ := 16 * 1024

/-- The arguments of a call and what the system supplies to it. -/
structure SendCall where
  seq : UInt32
  info : M
  /-- The result of `fs::relative`; nothing when it reports an error. -/
  relPath : Option Bytes
  /-- The contents of the file; nothing when `open` or `mmap` fails. -/
  file : Option Bytes
  pad : Padding
  writes : List SysWrite
  /-- The loads of `ok`, one for each chunk. -/
  oks : List Bool
deriving DecidableEq, Repr

/-- How a call ends: it returns a flag, or the process exits. -/
inductive SendEnd where
  | returned (sent : Bool)
  | fatal
deriving DecidableEq, Repr

/-- The outcome of a call: its end, the bytes it wrote and the counts it ticked. -/
structure SendRun where
  outcome : SendEnd
  written : Bytes
  ticks : List ℕ := []
deriving DecidableEq, Repr

/-- The mapping of a file: `mmap` fills it up with zeros past the end of the file. -/
def mapped (file : Bytes) (fsize : ℕ) : Bytes := resize file fsize

/-- `write_file_contents` from `nSent` on. Every round that goes on sends at least one
byte, so the bytes left bound the number of rounds. -/
def writeFileContents (map : Bytes) : (left : ℕ) → (nSent : ℕ) → List SysWrite → List Bool →
    Option SendRun
  | 0, _, _, _ => some ⟨.returned true, [], []⟩
  | left + 1, nSent, writes, oks =>
      if nSent < map.length then
        let chunk := min chunkSize (map.length - nSent)
        match writePartial ((map.drop nSent).take chunk) writes, oks with
        | none, _ => none
        | _, [] => none
        | some t, ok :: oks =>
            if t.result.kind = .fail ∨ t.result.nBytes = 0 ∨ ok = false then
              some ⟨.returned false, t.bytes, []⟩
            else
              (writeFileContents map left (nSent + t.result.nBytes) t.unused oks).map fun r =>
                { r with written := t.bytes ++ r.written, ticks := t.result.nBytes :: r.ticks }
      else some ⟨.returned true, [], []⟩

/-- The header `send_datamsg` writes. -/
def SendCall.header (call : SendCall) (relPath : Bytes) : DataMessage where
  seq := call.seq
  perms := call.info.perms
  ftype := call.info.ftype.code
  pathLen := .ofNat relPath.length
  fsize := call.info.fsize

def sendDatamsg (call : SendCall) : Option SendRun :=
  match call.relPath with
  | none => some ⟨.fatal, [], []⟩
  | some relPath =>
      if relPath.length > 65535 then some ⟨.returned false, [], []⟩
      else
        match writeExact ((call.header relPath).encode call.pad) call.writes with
        | none => none
        | some hdr =>
            if hdr.result.kind = .fail then some ⟨.returned false, hdr.bytes, []⟩
            else
              match writeExact relPath hdr.unused with
              | none => none
              | some path =>
                  if path.result.kind = .fail then
                    some ⟨.returned false, hdr.bytes ++ path.bytes, []⟩
                  else if call.info.ftype = .regular ∧ call.info.fsize > 0 then
                    match call.file with
                    | none => some ⟨.fatal, hdr.bytes ++ path.bytes, []⟩
                    | some file =>
                        (writeFileContents (mapped file call.info.fsize.toNat)
                            call.info.fsize.toNat 0 path.unused call.oks).map fun r =>
                          { r with written := hdr.bytes ++ path.bytes ++ r.written }
                  else some ⟨.returned true, hdr.bytes ++ path.bytes, []⟩

/-! ## What a successful call has written -/

/-- The content bytes of a message: none for a directory or an empty file. -/
def SendCall.contents (call : SendCall) : Bytes :=
  if call.info.ftype = .regular then mapped (call.file.getD []) call.info.fsize.toNat else []

theorem length_mapped (file : Bytes) (fsize : ℕ) : (mapped file fsize).length = fsize :=
  length_resize ..

/-- A round of the chunk loop: it finds that everything is sent, or it sends some bytes of the
mapping and gives up or goes on. -/
inductive RoundCase (map : Bytes) (left nSent : ℕ) : SendRun → Prop
  | complete (sent : map.length ≤ nSent) : RoundCase map left nSent ⟨.returned true, [], []⟩
  | stop (count : ℕ) : RoundCase map left nSent ⟨.returned false, (map.drop nSent).take count, []⟩
  | next {count : ℕ} {writes : List SysWrite} {oks : List Bool} {r : SendRun} (some_ : count ≠ 0)
      (within : count ≤ map.length - nSent)
      (ran : writeFileContents map left (nSent + count) writes oks = some r) :
      RoundCase map left nSent { r with
        written := (map.drop nSent).take count ++ r.written, ticks := count :: r.ticks }

theorem writeFileContents_cases {map : Bytes} {left nSent : ℕ} {writes : List SysWrite}
    {oks : List Bool} {r : SendRun}
    (ran : writeFileContents map (left + 1) nSent writes oks = some r) :
    RoundCase map left nSent r := by
  simp only [writeFileContents] at ran
  split at ran
  case isFalse done =>
    cases ran
    exact .complete (Nat.le_of_not_lt done)
  case isTrue more =>
    split at ran
    case h_1 => cases ran
    case h_2 => cases ran
    case h_3 t ok oks wrote =>
      obtain ⟨upper, bytes⟩ := writePartial_spec wrote
      simp only [List.length_take, List.length_drop] at upper
      have block : t.bytes = (map.drop nSent).take t.result.nBytes := by
        rw [bytes, List.take_take, Nat.min_eq_left (upper.trans (Nat.min_le_left _ _))]
      split at ran
      case isTrue =>
        cases ran
        exact block ▸ .stop _
      case isFalse going =>
        obtain ⟨r', inner, rfl⟩ := Option.map_eq_some_iff.1 ran
        rw [block]
        exact .next (fun zero => going (.inr (.inl zero))) (by omega) inner

/-- The chunk loop that returns true has written the rest of the mapping. -/
theorem writeFileContents_sent {map : Bytes} {left nSent : ℕ} {writes : List SysWrite}
    {oks : List Bool} {r : SendRun} (bound : map.length - nSent ≤ left)
    (ran : writeFileContents map left nSent writes oks = some r)
    (sent : r.outcome = .returned true) : r.written = map.drop nSent := by
  induction left generalizing nSent writes oks r with
  | zero =>
      cases ran
      exact (List.drop_of_length_le (by omega)).symm
  | succ left ih =>
      cases writeFileContents_cases ran with
      | complete done => exact (List.drop_of_length_le done).symm
      | stop => cases sent
      | next some_ within inner =>
          have rest := ih (by omega) inner sent
          rw [rest, ← List.drop_drop, List.take_append_drop]

/-- It ticks no more than the bytes that were left, and all of them when it returns true. -/
theorem writeFileContents_ticks {map : Bytes} {left nSent : ℕ} {writes : List SysWrite}
    {oks : List Bool} {r : SendRun} (bound : map.length - nSent ≤ left)
    (ran : writeFileContents map left nSent writes oks = some r) :
    total id r.ticks ≤ map.length - nSent ∧
      (r.outcome = .returned true → total id r.ticks = map.length - nSent) := by
  induction left generalizing nSent writes oks r with
  | zero =>
      cases ran
      exact ⟨Nat.zero_le _, fun _ => (Nat.le_zero.1 bound).symm⟩
  | succ left ih =>
      cases writeFileContents_cases ran with
      | complete done => exact ⟨Nat.zero_le _, fun _ => (Nat.sub_eq_zero_of_le done).symm⟩
      | stop => exact ⟨Nat.zero_le _, by simp⟩
      | next some_ within inner =>
          obtain ⟨most, all⟩ := ih (by omega) inner
          simp only [total_cons, id]
          refine ⟨by omega, fun sent => ?_⟩
          have rest := all sent
          omega

/-- How a call of `send_datamsg` can end. -/
inductive SendCase (call : SendCall) : SendRun → Prop
  | nameless (nowhere : call.relPath = none) : SendCase call ⟨.fatal, [], []⟩
  | long {relPath : Bytes} (named : call.relPath = some relPath) (long : 65535 < relPath.length) :
      SendCase call ⟨.returned false, [], []⟩
  | header {relPath : Bytes} {t : Transfer SysWrite} (named : call.relPath = some relPath)
      (short : relPath.length ≤ 65535)
      (wrote : writeExact ((call.header relPath).encode call.pad) call.writes = some t) :
      SendCase call ⟨.returned false, t.bytes, []⟩
  | path {relPath : Bytes} {writes : List SysWrite} {t : Transfer SysWrite}
      (named : call.relPath = some relPath) (short : relPath.length ≤ 65535)
      (wrote : writeExact relPath writes = some t) :
      SendCase call ⟨.returned false, (call.header relPath).encode call.pad ++ t.bytes, []⟩
  | unopened {relPath : Bytes} (named : call.relPath = some relPath)
      (short : relPath.length ≤ 65535) :
      SendCase call ⟨.fatal, (call.header relPath).encode call.pad ++ relPath, []⟩
  | contents {relPath file : Bytes} {writes : List SysWrite} {r : SendRun}
      (named : call.relPath = some relPath) (short : relPath.length ≤ 65535)
      (regular : call.info.ftype = .regular) (opened : call.file = some file)
      (ran : writeFileContents (mapped file call.info.fsize.toNat) call.info.fsize.toNat 0 writes
        call.oks = some r) :
      SendCase call
        { r with written := (call.header relPath).encode call.pad ++ relPath ++ r.written }
  | bare {relPath : Bytes} (named : call.relPath = some relPath)
      (short : relPath.length ≤ 65535)
      (empty : ¬ (call.info.ftype = .regular ∧ call.info.fsize > 0)) :
      SendCase call ⟨.returned true, (call.header relPath).encode call.pad ++ relPath, []⟩

/-- A call ends in one of these ways. -/
theorem sendDatamsg_cases {call : SendCall} {r : SendRun} (ran : sendDatamsg call = some r) :
    SendCase call r := by
  unfold sendDatamsg at ran
  split at ran
  case h_1 nowhere =>
    cases ran
    exact .nameless nowhere
  case h_2 relPath named =>
    split at ran
    case isTrue long =>
      cases ran
      exact .long named long
    case isFalse short =>
      have short := Nat.le_of_not_lt short
      split at ran
      case h_1 => cases ran
      case h_2 hdr hdrRan =>
        split at ran
        case isTrue =>
          cases ran
          exact .header named short hdrRan
        case isFalse hdrOk =>
          rw [writeExact_ok hdrRan (IOKind.eq_ok hdrOk)] at ran
          split at ran
          case h_1 => cases ran
          case h_2 path pathRan =>
            split at ran
            case isTrue =>
              cases ran
              exact .path named short pathRan
            case isFalse pathOk =>
              rw [writeExact_ok pathRan (IOKind.eq_ok pathOk)] at ran
              split at ran
              case isTrue regular =>
                split at ran
                case h_1 =>
                  cases ran
                  exact .unopened named short
                case h_2 file opened =>
                  obtain ⟨r', inner, rfl⟩ := Option.map_eq_some_iff.mp ran
                  exact .contents named short regular.1 opened inner
              case isFalse empty =>
                cases ran
                exact .bare named short empty

/-- A directory and an empty file have no contents. -/
theorem SendCall.contents_eq_nil {call : SendCall}
    (empty : ¬ (call.info.ftype = .regular ∧ call.info.fsize > 0)) : call.contents = [] := by
  by_cases regular : call.info.ftype = .regular
  · have zero : call.info.fsize = 0 := by
      by_contra nonzero
      exact empty ⟨regular, UInt64.pos_iff_ne_zero.mpr nonzero⟩
    rw [SendCall.contents, if_pos regular, zero, UInt64.toNat_zero]
    exact List.eq_nil_of_length_eq_zero (length_mapped _ _)
  · rw [SendCall.contents, if_neg regular]

theorem SendCall.contents_eq_mapped {call : SendCall} {file : Bytes}
    (regular : call.info.ftype = .regular) (opened : call.file = some file) :
    call.contents = mapped file call.info.fsize.toNat := by
  rw [SendCall.contents, if_pos regular, opened, Option.getD_some]

/-- **A call of `send_datamsg` that returns true has written its message in full**:
the header, the path, and the contents of a regular file. -/
theorem sendDatamsg_sent {call : SendCall} {r : SendRun} (ran : sendDatamsg call = some r)
    (sent : r.outcome = .returned true) :
    ∃ relPath, call.relPath = some relPath ∧ relPath.length ≤ 65535 ∧
      r.written = (call.header relPath).encode call.pad ++ relPath ++ call.contents := by
  cases sendDatamsg_cases ran with
  | nameless | long | header | path | unopened => cases sent
  | contents named short regular opened inner =>
      refine ⟨_, named, short, ?_⟩
      have body := writeFileContents_sent (by rw [length_mapped, Nat.sub_zero]) inner sent
      rw [SendCall.contents_eq_mapped regular opened, body, List.drop_zero]
  | bare named short empty =>
      refine ⟨_, named, short, ?_⟩
      rw [SendCall.contents_eq_nil empty, List.append_nil]

/-- **A call ticks no more than the size of its file**, nothing when it cannot map it, and all of
it when it returns true. -/
theorem sendDatamsg_ticks {call : SendCall} {r : SendRun} (ran : sendDatamsg call = some r) :
    total id r.ticks ≤
        (if call.info.ftype = .regular ∧ call.file.isSome then call.info.fsize.toNat else 0) ∧
      (r.outcome = .returned true →
        total id r.ticks = if call.info.ftype = .regular then call.info.fsize.toNat else 0) := by
  cases sendDatamsg_cases ran with
  | nameless | long | header | path | unopened => exact ⟨Nat.zero_le _, by simp⟩
  | contents named short regular opened inner =>
      have ticked := writeFileContents_ticks (by rw [length_mapped, Nat.sub_zero]) inner
      simpa [length_mapped, regular, opened] using ticked
  | bare named short empty =>
      refine ⟨Nat.zero_le _, fun _ => ?_⟩
      have contents := congrArg List.length (SendCall.contents_eq_nil empty)
      unfold SendCall.contents at contents
      split at contents
      · rw [length_mapped] at contents
        simp [*]
      · simp [*]

/-! ## What any call has written -/

/-- The bytes of one message: a header, a path and the contents it announces. -/
def WireMessage (bytes : Bytes) : Prop :=
  ∃ (msg : DataMessage) (pad : Padding) (path contents : Bytes),
    path.length = msg.pathLen.toNat ∧
      contents.length = (if msg.ftype = FileType.regular.code then msg.fsize.toNat else 0) ∧
        bytes = msg.encode pad ++ path ++ contents

/-- The message that a call is to write; there is none without a path or when it is too long. -/
def SendCall.wire (call : SendCall) : Option Bytes :=
  call.relPath.bind fun relPath =>
    if relPath.length ≤ 65535 then
      some ((call.header relPath).encode call.pad ++ relPath ++ call.contents)
    else none

theorem SendCall.wire_eq_some {call : SendCall} {relPath : Bytes}
    (named : call.relPath = some relPath) (short : relPath.length ≤ 65535) :
    call.wire = some ((call.header relPath).encode call.pad ++ relPath ++ call.contents) := by
  rw [wire, named, Option.bind_some, if_pos short]

theorem SendCall.wire_inv {call : SendCall} {message : Bytes} (own : call.wire = some message) :
    ∃ relPath, call.relPath = some relPath ∧ relPath.length ≤ 65535 ∧
      message = (call.header relPath).encode call.pad ++ relPath ++ call.contents := by
  obtain ⟨relPath, named, made⟩ := Option.bind_eq_some_iff.1 own
  obtain ⟨short, same⟩ := Option.ite_none_right_eq_some.1 made
  exact ⟨relPath, named, short, (Option.some.inj same).symm⟩

/-- The message of a call announces its path and its contents as they are. -/
theorem SendCall.wireMessage {call : SendCall} {message : Bytes} (own : call.wire = some message) :
    WireMessage message := by
  obtain ⟨relPath, -, short, rfl⟩ := SendCall.wire_inv own
  refine ⟨_, _, _, _, ?_, ?_, rfl⟩
  · simp only [SendCall.header, UInt16.toNat_ofNat']
    omega
  · simp only [SendCall.header, SendCall.contents, FileType.code_eq_regular]
    split
    · exact length_mapped _ _
    · rfl

/-- The chunk loop writes the mapping from where it starts, and stops somewhere. -/
theorem writeFileContents_isPrefix {map : Bytes} {left nSent : ℕ} {writes : List SysWrite}
    {oks : List Bool} {r : SendRun}
    (ran : writeFileContents map left nSent writes oks = some r) :
    r.written <+: map.drop nSent := by
  induction left generalizing nSent writes oks r with
  | zero =>
      cases ran
      exact List.nil_prefix
  | succ left ih =>
      cases writeFileContents_cases ran with
      | complete => exact List.nil_prefix
      | stop => exact List.take_prefix _ _
      | @next count _ _ r' _ _ inner =>
          have rest := ih inner
          rw [← List.drop_drop] at rest
          have going : (map.drop nSent).take count ++ r'.written <+:
              (map.drop nSent).take count ++ (map.drop nSent).drop count :=
            (List.prefix_append_right_inj _).2 rest
          rwa [List.take_append_drop] at going

theorem writeExact_isPrefix {buf : Bytes} {answers : List SysWrite} {t : Transfer SysWrite}
    (returned : writeExact buf answers = some t) : t.bytes <+: buf := by
  obtain ⟨t', inner, rfl⟩ := Option.map_eq_some_iff.1 returned
  exact (writePartial_spec inner).2 ▸ List.take_prefix _ _

/-- **A call of `send_datamsg` writes its message or the beginning of it**, whatever the kernel
answers and whatever becomes of `ok`; one that has no message writes nothing and fails. -/
theorem sendDatamsg_wire {call : SendCall} {r : SendRun} (ran : sendDatamsg call = some r) :
    (∃ message, call.wire = some message ∧ r.written <+: message ∧
      (r.outcome = .returned true → r.written = message)) ∨
    call.wire = none ∧ r.written = [] ∧ r.outcome ≠ .returned true := by
  by_cases whole : r.outcome = .returned true
  · obtain ⟨relPath, named, short, written⟩ := sendDatamsg_sent ran whole
    exact .inl ⟨_, call.wire_eq_some named short, written ▸ List.prefix_rfl, fun _ => written⟩
  have part : (∃ message, call.wire = some message ∧ r.written <+: message) ∨
      call.wire = none ∧ r.written = [] := by
    cases sendDatamsg_cases ran with
    | nameless nowhere => exact .inr ⟨by rw [SendCall.wire, nowhere, Option.bind_none], rfl⟩
    | long named long =>
        refine .inr ⟨?_, rfl⟩
        rw [SendCall.wire, named, Option.bind_some, if_neg (Nat.not_le.2 long)]
    | header named short wrote =>
        refine .inl ⟨_, call.wire_eq_some named short, ?_⟩
        rw [List.append_assoc]
        exact (writeExact_isPrefix wrote).trans (List.prefix_append _ _)
    | path named short wrote =>
        refine .inl ⟨_, call.wire_eq_some named short, ?_⟩
        rw [List.append_assoc, List.prefix_append_right_inj]
        exact (writeExact_isPrefix wrote).trans (List.prefix_append _ _)
    | unopened named short =>
        exact .inl ⟨_, call.wire_eq_some named short, List.prefix_append _ _⟩
    | contents named short regular opened inner =>
        refine .inl ⟨_, call.wire_eq_some named short, ?_⟩
        rw [SendCall.contents_eq_mapped regular opened, List.prefix_append_right_inj]
        exact writeFileContents_isPrefix inner
    | bare => exact absurd rfl whole
  rcases part with ⟨message, own, front⟩ | ⟨none_, nothing⟩
  · exact .inl ⟨message, own, front, fun sent => absurd sent whole⟩
  · exact .inr ⟨none_, nothing, whole⟩

/-! ## Calls that go through -/

/-- The chunk loop gets to its end when the kernel takes every chunk and `ok` stays true. -/
theorem exists_writeFileContents (map : Bytes) (left nSent : ℕ) :
    ∃ writes oks, false ∉ oks ∧
      (writeFileContents map left nSent writes oks).map (·.outcome) = some (.returned true) := by
  induction left generalizing nSent with
  | zero => exact ⟨[], [], by simp, rfl⟩
  | succ left ih =>
      by_cases more : nSent < map.length
      · have size : ((map.drop nSent).take (min chunkSize (map.length - nSent))).length =
            min chunkSize (map.length - nSent) := by
          rw [List.length_take, List.length_drop]
          omega
        obtain ⟨writes, oks, ok, ran⟩ := ih (nSent + min chunkSize (map.length - nSent))
        have fits : min chunkSize (map.length - nSent) ≤ maxRwSize := by
          simp only [chunkSize, maxRwSize]
          omega
        have positive : min chunkSize (map.length - nSent) ≠ 0 := by
          simp only [chunkSize]
          omega
        obtain ⟨answers, wrote⟩ := exists_writePartial (size.trans_le fits) writes
        rw [size] at wrote
        refine ⟨answers, true :: oks, by simpa using ok, ?_⟩
        simpa [writeFileContents, more, wrote, positive, Option.map_map, Function.comp_def]
          using ran
      · exact ⟨[], [], by simp, by simp [writeFileContents, more]⟩

/-- The kernel may take the contents byte by byte, and each of them is ticked. -/
theorem exists_writeFileContents_bytes (map : Bytes) (left nSent : ℕ) :
    ∃ writes oks r, writeFileContents map left nSent writes oks = some r ∧
      r.ticks = List.replicate (min left (map.length - nSent)) 1 := by
  induction left generalizing nSent with
  | zero => exact ⟨[], [], _, rfl, by simp⟩
  | succ left ih =>
      by_cases more : nSent < map.length
      · have block : (map.drop nSent).take (min chunkSize (map.length - nSent)) ≠ [] := by
          rw [← List.length_pos_iff, List.length_take, List.length_drop, chunkSize]
          omega
        obtain ⟨writes, oks, r, ran, ticks⟩ := ih (nSent + 1)
        obtain ⟨answers, t, wrote, result, unused⟩ := exists_writePartial_one block writes
        refine ⟨answers, true :: oks,
          { r with written := t.bytes ++ r.written, ticks := 1 :: r.ticks }, ?_, ?_⟩
        · simp [writeFileContents, more, wrote, result, unused, ran]
        · have count : min (left + 1) (map.length - nSent) =
              min left (map.length - (nSent + 1)) + 1 := by omega
          rw [count, List.replicate_succ, ← ticks]
      · exact ⟨[], [], ⟨.returned true, [], []⟩, by simp [writeFileContents, more],
          by simp [Nat.sub_eq_zero_of_le (Nat.le_of_not_lt more)]⟩

/-- A call whose header and path are taken at once. -/
theorem exists_sendDatamsg_contents (seq : UInt32) (info : M) {writes : List SysWrite}
    {oks : List Bool} {body : SendRun} (ran : writeFileContents (mapped [] info.fsize.toNat)
      info.fsize.toNat 0 writes oks = some body) :
    ∃ call r, call.seq = seq ∧ call.info = info ∧ call.file = some [] ∧ call.oks = oks ∧
      sendDatamsg call = some r ∧
        if info.ftype = .regular ∧ info.fsize > 0 then
          r.outcome = body.outcome ∧ r.ticks = body.ticks
        else r.outcome = .returned true ∧ r.ticks = [] := by
  obtain ⟨rest, path⟩ := exists_writeExact (show ([] : Bytes).length ≤ maxRwSize by decide) writes
  obtain ⟨answers, header⟩ : ∃ answers, writeExact
      ((⟨seq, info.perms, info.ftype.code, .ofNat ([] : Bytes).length, info.fsize⟩ :
        DataMessage).encode ⟨0, 0⟩) answers =
        some ⟨⟨.ok, _⟩, _, rest⟩ :=
    exists_writeExact (by rw [DataMessage.length_encode]; decide) rest
  refine ⟨⟨seq, info, some [], some [], ⟨0, 0⟩, answers, oks⟩, ?_⟩
  by_cases regular : info.ftype = .regular ∧ info.fsize > 0
  · simp only [sendDatamsg, SendCall.header, header, path, if_pos regular, ran]
    simp
  · simp only [sendDatamsg, SendCall.header, header, path, if_neg regular]
    simp

/-- Any node can be sent in full, by a call that never sees `ok` false. -/
theorem exists_sendDatamsg (seq : UInt32) (info : M) :
    ∃ call r, call.seq = seq ∧ call.info = info ∧ false ∉ call.oks ∧
      sendDatamsg call = some r ∧ r.outcome = .returned true := by
  obtain ⟨writes, oks, ok, ran⟩ :=
    exists_writeFileContents (mapped [] info.fsize.toNat) info.fsize.toNat 0
  obtain ⟨body, ran, whole⟩ := Option.map_eq_some_iff.1 ran
  obtain ⟨call, r, rfl, rfl, -, rfl, sent, ends⟩ := exists_sendDatamsg_contents seq info ran
  refine ⟨call, r, rfl, rfl, ok, sent, ?_⟩
  split at ends
  · rw [ends.1, whole]
  · exact ends.1

end Enuwatch

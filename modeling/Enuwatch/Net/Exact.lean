import Enuwatch.Lib.Chunked
import Enuwatch.Lib.Pool
import Enuwatch.Net

/-!
# The transfer loops are exact

`read_partial` and `write_partial` are one loop over chunks, with the bytes as payload
(`readLoop_outcome`, `writeLoop_outcome`). Whatever the system calls answer, unless they ask for
another try for ever, the loop returns; it has then moved the bytes that it counts and no others,
and only an error makes it fail. `read_exact` and `write_exact` succeed exactly on a complete
transfer, so what is written by any calls is read back by any calls of the same total length
(`io_exact`).
-/

set_option autoImplicit false

namespace Enuwatch.Net

open Enuwatch.Lib

/-! ## Both are loops over chunks -/

def SysRead.reply : SysRead → Reply
  | .data block => .count block.length
  | .zero => .zero
  | .retry => .retry
  | .error => .error

def SysWrite.reply : SysWrite → Reply
  | .wrote count => if count = 0 then .zero else .count count
  | .retry => .retry
  | .error => .error

/-- How a transfer has ended, without its bytes. -/
def Transfer.outcome {Answer : Type} (reply : Answer → Reply) (t : Transfer Answer) : Outcome :=
  ⟨t.result.kind = .fail, t.result.nBytes, t.unused.map reply⟩

theorem SysRead.reply_eq_error {answer : SysRead} : answer.reply = .error ↔ answer = .error := by
  cases answer <;> simp [SysRead.reply]

theorem SysWrite.reply_eq_error {answer : SysWrite} : answer.reply = .error ↔ answer = .error := by
  cases answer with
  | wrote count =>
      simp only [SysWrite.reply]
      split <;> simp
  | _ => simp [SysWrite.reply]

theorem readLoop_outcome (len off : ℕ) (answers : List SysRead) :
    (readLoop len off answers).map (Transfer.outcome SysRead.reply) =
      transfer maxRwSize len off (answers.map SysRead.reply) := by
  induction answers generalizing off with
  | nil =>
      simp only [readLoop, List.map_nil, transfer]
      split <;> rfl
  | cons answer answers ih =>
      by_cases more : off < len
      · simp only [readLoop, List.map_cons, transfer, if_pos more]
        cases answer with
        | data block =>
            simp only [SysRead.reply, chunk, List.length_eq_zero_iff, ne_eq]
            split
            · rw [← ih, Option.map_map]
              rfl
            · rfl
        | zero => rfl
        | retry => exact ih off
        | error => rfl
      · simp only [readLoop, List.map_cons, transfer, if_neg more]
        rfl

theorem writeLoop_outcome (buf : Bytes) (off : ℕ) (answers : List SysWrite) :
    (writeLoop buf off answers).map (Transfer.outcome SysWrite.reply) =
      transfer maxRwSize buf.length off (answers.map SysWrite.reply) := by
  induction answers generalizing off with
  | nil =>
      simp only [writeLoop, List.map_nil, transfer]
      split <;> rfl
  | cons answer answers ih =>
      by_cases more : off < buf.length
      · cases answer with
        | wrote count =>
            by_cases none_ : count = 0
            · subst none_
              simp only [writeLoop, List.map_cons, SysWrite.reply, transfer, if_pos more,
                Nat.zero_le, if_true]
              rfl
            · have reply : SysWrite.reply (.wrote count) = .count count := if_neg none_
              simp only [writeLoop, List.map_cons, reply, transfer, if_pos more, if_neg none_]
              by_cases fits : count ≤ min maxRwSize (buf.length - off)
              · rw [if_pos fits, if_pos ⟨none_, fits⟩, Option.map_map, ← ih]
                rfl
              · rw [if_neg fits, if_neg fun both => fits both.2]
                rfl
        | retry =>
            simp only [writeLoop, List.map_cons, SysWrite.reply, transfer, if_pos more]
            exact ih off
        | error =>
            simp only [writeLoop, List.map_cons, SysWrite.reply, transfer, if_pos more]
            rfl
      · simp only [writeLoop, List.map_cons, transfer, if_neg more]
        rfl

/-! ## The buffer that is read into -/

/-- The buffer after the loop of `read_partial`, which stores each block at its offset. -/
def storeLoop (len : ℕ) : Bytes → ℕ → List SysRead → Bytes
  | buffer, _, [] => buffer
  | buffer, off, answer :: answers =>
      if off < len then
        match answer with
        | .data block => storeLoop len (overwrite buffer off block) (off + block.length) answers
        | .zero => buffer
        | .retry => storeLoop len buffer off answers
        | .error => buffer
      else buffer

/-- The blocks follow each other in the buffer. -/
theorem storeLoop_eq {len off : ℕ} {buffer : Bytes} {answers : List SysRead} {t : Transfer SysRead}
    (room : len ≤ buffer.length) (within : off ≤ len)
    (returned : readLoop len off answers = some t) :
    storeLoop len buffer off answers = overwrite buffer off t.bytes := by
  induction answers generalizing off buffer t with
  | nil =>
      simp only [readLoop] at returned
      split at returned
      · cases returned
      · cases returned
        simp [storeLoop]
  | cons answer answers ih =>
      simp only [readLoop] at returned
      split at returned
      case isFalse done =>
        cases returned
        simp only [storeLoop, if_neg done, overwrite_nil]
      case isTrue more =>
        simp only [storeLoop, if_pos more]
        cases answer with
        | data block =>
            simp only at returned ⊢
            split at returned
            case isFalse => cases returned
            case isTrue fits =>
              obtain ⟨rest, inner, rfl⟩ := Option.map_eq_some_iff.1 returned
              have inside : off + block.length ≤ len := by omega
              have same : (overwrite buffer off block).length = buffer.length :=
                length_overwrite (by omega)
              rw [ih (same ▸ room) inside inner, overwrite_overwrite (by omega)]
              rfl
        | zero =>
            cases returned
            exact (overwrite_nil buffer off).symm
        | retry => exact ih room within returned
        | error =>
            cases returned
            exact (overwrite_nil buffer off).symm

/-! ## One call -/

/-- What a call of `write_partial` and one of `write_exact` do, given these answers. -/
structure WritesExactly (buf : Bytes) (answers : List SysWrite) (t : Transfer SysWrite) :
    Prop where
  all : t.unused = []
  count : t.result.nBytes ≤ buf.length
  bytes : t.bytes = buf.take t.result.nBytes
  requested : ∀ request ∈ requests maxRwSize buf.length 0 (answers.map SysWrite.reply),
    request.2 ≤ maxRwSize ∧ request.1 + request.2 ≤ buf.length
  failed : t.result.kind = .fail ↔ answers.getLast? = some .error
  exact : ∃ e, writeExact buf answers = some e ∧ e.bytes = t.bytes ∧
    (e.result.kind = .ok ↔ t.bytes.length = buf.length)

/-- What a call of `read_partial` and one of `read_exact` do, given these answers. -/
structure ReadsExactly (len : ℕ) (answers : List SysRead) (t : Transfer SysRead) : Prop where
  all : t.unused = []
  count : t.result.nBytes = t.bytes.length ∧ t.bytes.length ≤ len
  bytes : t.bytes = incoming answers
  /-- The first bytes of the buffer are filled, and the others stay. -/
  stored : ∀ buffer : Bytes, len ≤ buffer.length →
    storeLoop len buffer 0 answers = t.bytes ++ buffer.drop t.result.nBytes
  requested : ∀ request ∈ requests maxRwSize len 0 (answers.map SysRead.reply),
    request.2 ≤ maxRwSize ∧ request.1 + request.2 ≤ len
  failed : t.result.kind = .fail ↔ answers.getLast? = some .error
  exact : ∃ e, readExact len answers = some e ∧ e.bytes = t.bytes ∧
    (e.result.kind = .ok ↔ t.bytes.length = len)

/-- A failure is an error as the last answer, and leaves something over. -/
theorem Transfer.failed_iff {Answer : Type} {reply : Answer → Reply} {error : Answer}
    (only : ∀ answer, reply answer = .error ↔ answer = error) {len : ℕ} {answers : List Answer}
    {t : Transfer Answer} (all : t.unused = [])
    (ended : transfer maxRwSize len 0 (answers.map reply) = some (t.outcome reply)) :
    (t.result.kind = .fail ↔ answers.getLast? = some error) ∧
      (t.result.kind = .fail → t.result.nBytes < len) := by
  obtain ⟨used, ends⟩ := transfer_spec (Nat.zero_le len) ended
  have whole : answers.map reply = used := by
    simpa [Transfer.outcome, all] using ends.split
  have last : used.getLast? = some .error ↔ answers.getLast? = some error := by
    rw [← whole, List.getLast?_map, Option.map_eq_some_iff]
    constructor
    · rintro ⟨answer, found, same⟩
      rw [found, (only answer).1 same]
    · intro found
      exact ⟨error, found, (only error).2 rfl⟩
  constructor
  · rw [← last, ← ends.failed]
    simp [Transfer.outcome]
  · intro bad
    exact ends.short (by simpa [Transfer.outcome] using bad)

/-- The check of the count succeeds on a complete transfer only. -/
theorem IOResult.exact_ok_iff {r : IOResult} {len : ℕ} (short : r.kind = .fail → r.nBytes < len) :
    (r.exact len).kind = .ok ↔ r.nBytes = len := by
  unfold IOResult.exact
  split
  · rename_i partly
    simp [partly]
  · rename_i complete
    rw [ne_eq, not_not] at complete
    refine ⟨fun _ => complete, fun _ => IOKind.eq_ok fun bad => ?_⟩
    have := short bad
    omega

theorem writesExactly {buf : Bytes} {answers : List SysWrite} {t : Transfer SysWrite}
    (returned : writePartial buf answers = some t) (all : t.unused = []) :
    WritesExactly buf answers t := by
  have ended : transfer maxRwSize buf.length 0 (answers.map SysWrite.reply) =
      some (t.outcome SysWrite.reply) := by
    rw [← writeLoop_outcome]
    exact congrArg (Option.map _) returned
  obtain ⟨failed, short⟩ := t.failed_iff (fun _ => SysWrite.reply_eq_error) all ended
  obtain ⟨count, bytes⟩ := writePartial_spec returned
  refine ⟨all, count, bytes, fun _ => mem_requests, failed, ?_⟩
  refine ⟨{ t with result := t.result.exact buf.length }, ?_, rfl, ?_⟩
  · rw [writeExact, returned, Option.map_some]
  · have length : t.bytes.length = t.result.nBytes := by
      rw [bytes, List.length_take, min_eq_left count]
    rw [IOResult.exact_ok_iff short, length]

theorem readsExactly {len : ℕ} {answers : List SysRead} {t : Transfer SysRead}
    (returned : readPartial len answers = some t) (all : t.unused = []) :
    ReadsExactly len answers t := by
  have ended : transfer maxRwSize len 0 (answers.map SysRead.reply) =
      some (t.outcome SysRead.reply) := by
    rw [← readLoop_outcome]
    exact congrArg (Option.map _) returned
  obtain ⟨failed, short⟩ := t.failed_iff (fun _ => SysRead.reply_eq_error) all ended
  obtain ⟨count, fits, -, -⟩ := readPartial_spec returned
  rw [Nat.zero_add] at count fits
  refine ⟨all, ⟨count, fits⟩, ?_, ?_, fun _ => mem_requests, failed, ?_⟩
  · have came := readLoop_incoming returned
    rwa [all, incoming, List.append_nil] at came
  · intro buffer room
    rw [storeLoop_eq room (Nat.zero_le len) returned, count]
    simp [overwrite]
  · refine ⟨{ t with result := t.result.exact len }, ?_, rfl, ?_⟩
    · rw [readExact, returned, Option.map_some]
    · rw [IOResult.exact_ok_iff short, count]

/-! ## Many calls -/

/-- A call of `write_exact` that has returned. -/
structure WriteCall where
  buf : Bytes
  answers : List SysWrite
  done : Transfer SysWrite
  returned : writeExact buf answers = some done

/-- A call of `read_exact` that has returned, with the answers to its own calls. -/
structure ReadCall where
  len : ℕ
  answers : List SysRead
  done : Transfer SysRead
  returned : readExact len answers = some done
  all : done.unused = []

/-- A call of `read_exact` is one of `read_partial`, with a check of its count. -/
theorem ReadCall.reads (call : ReadCall) :
    ∃ t, ReadsExactly call.len call.answers t ∧ call.done.bytes = t.bytes := by
  obtain ⟨t, inner, same⟩ := Option.map_eq_some_iff.1 call.returned
  have all : t.unused = [] := by
    rw [← call.all, ← same]
  exact ⟨t, readsExactly inner all, by rw [← same]⟩

theorem ReadCall.bytes_eq (call : ReadCall) : call.done.bytes = incoming call.answers := by
  obtain ⟨t, reads, same⟩ := call.reads
  exact same.trans reads.bytes

theorem ReadCall.length_eq (call : ReadCall) (ok : call.done.result.kind = .ok) :
    call.done.bytes.length = call.len := by
  obtain ⟨t, reads, same⟩ := call.reads
  obtain ⟨e, exact, -, complete⟩ := reads.exact
  obtain rfl := Option.some.inj (call.returned.symm.trans exact)
  rw [same]
  exact complete.1 ok

/-- The bytes that the writes have sent, in order. -/
def sent (writes : List WriteCall) : Bytes := writes.flatMap (·.done.bytes)

/-- The bytes that the reads were given, in order. -/
def delivered (reads : List ReadCall) : Bytes := reads.flatMap fun call => incoming call.answers

theorem length_reads {reads : List ReadCall} (ok : ∀ call ∈ reads, call.done.result.kind = .ok) :
    (reads.flatMap (·.done.bytes)).length = total (·.len) reads := by
  induction reads with
  | nil => rfl
  | cons call reads ih =>
      have first := call.length_eq (ok call List.mem_cons_self)
      have others := ih fun other among => ok other (List.mem_cons_of_mem _ among)
      rw [List.flatMap_cons, List.length_append, total_cons, first, others]

/-- Complete reads of as many bytes as were sent find all of them. -/
theorem reads_eq_sent {writes : List WriteCall} {reads : List ReadCall}
    (stream : delivered reads <+: sent writes)
    (ok : ∀ call ∈ reads, call.done.result.kind = .ok)
    (same : total (·.len) reads = (sent writes).length) :
    reads.flatMap (·.done.bytes) = sent writes := by
  have given : reads.flatMap (·.done.bytes) = delivered reads := by
    unfold delivered
    exact congrArg (List.flatMap · reads) (funext ReadCall.bytes_eq)
  have length := length_reads ok
  rw [given] at length ⊢
  exact stream.eq_of_length (length.trans same)

theorem sent_eq {writes : List WriteCall} (ok : ∀ call ∈ writes, call.done.result.kind = .ok) :
    sent writes = writes.flatMap (·.buf) := by
  induction writes with
  | nil => rfl
  | cons call writes ih =>
      have first := writeExact_ok call.returned (ok call List.mem_cons_self)
      have others := ih fun other among => ok other (List.mem_cons_of_mem _ among)
      rw [sent, List.flatMap_cons, first, List.flatMap_cons, ← others, sent]

/-- **The transfer loops are exact.** Unless the answers are retries for ever, `write_partial` and
`read_partial` return, and have moved what they count. What `write_exact` has sent is what
`read_exact` finds, however both are cut into calls. -/
theorem io_exact :
    (∀ (buf : Bytes) (answers : Stream' SysWrite),
      Answered maxRwSize buf.length 0 (answers.map SysWrite.reply) →
        ∃ n t, writePartial buf (answers.take n) = some t ∧
          WritesExactly buf (answers.take n) t) ∧
    (∀ (len : ℕ) (answers : Stream' SysRead),
      Answered maxRwSize len 0 (answers.map SysRead.reply) →
        ∃ n t, readPartial len (answers.take n) = some t ∧ ReadsExactly len (answers.take n) t) ∧
    ∀ (writes : List WriteCall) (reads : List ReadCall), delivered reads <+: sent writes →
      (∀ call ∈ reads, call.done.result.kind = .ok) →
        total (·.len) reads = (sent writes).length →
          reads.flatMap (·.done.bytes) = sent writes ∧
            ((∀ call ∈ writes, call.done.result.kind = .ok) →
              reads.flatMap (·.done.bytes) = writes.flatMap (·.buf)) := by
  refine ⟨?_, ?_, ?_⟩
  · intro buf answers answered
    obtain ⟨n, o, ended, used⟩ := transfer_ends (Nat.zero_le _) answered
    rw [← Stream'.map_take, ← writeLoop_outcome] at ended
    obtain ⟨t, returned, rfl⟩ := Option.map_eq_some_iff.1 ended
    exact ⟨n, t, returned, writesExactly returned (by simpa [Transfer.outcome] using used)⟩
  · intro len answers answered
    obtain ⟨n, o, ended, used⟩ := transfer_ends (Nat.zero_le _) answered
    rw [← Stream'.map_take, ← readLoop_outcome] at ended
    obtain ⟨t, returned, rfl⟩ := Option.map_eq_some_iff.1 ended
    exact ⟨n, t, returned, readsExactly returned (by simpa [Transfer.outcome] using used)⟩
  · intro writes reads stream ok same
    have back := reads_eq_sent stream ok same
    exact ⟨back, fun complete => back.trans (sent_eq complete)⟩

/-- The answers to a write of three bytes, which is interrupted and then takes two and one. -/
def sampleAnswers : Stream' SysWrite :=
  Stream'.cons .retry (Stream'.cons (.wrote 2) (Stream'.const (.wrote 1)))

/-- The answers to a read of three bytes, which gets one, is interrupted and gets the other two. -/
def sampleReads : Stream' SysRead :=
  Stream'.cons (.data [5]) (Stream'.cons .retry (Stream'.const (.data [6, 7])))

def sampleWrite : WriteCall where
  buf := [5, 6, 7]
  answers := [.retry, .wrote 2, .wrote 1]
  done := ⟨⟨.ok, 3⟩, [5, 6, 7], []⟩
  returned := by decide

/-- The three bytes are read as one and two. -/
def sampleRead (second : Bool) : ReadCall where
  len := if second then 2 else 1
  answers := if second then [.retry, .data [6, 7]] else [.data [5]]
  done := if second then ⟨⟨.ok, 2⟩, [6, 7], []⟩ else ⟨⟨.ok, 1⟩, [5], []⟩
  returned := by cases second <;> decide
  all := by cases second <;> rfl

theorem io_exact_sample :
    (∃ n t, writePartial [5, 6, 7] (sampleAnswers.take n) = some t ∧
      WritesExactly [5, 6, 7] (sampleAnswers.take n) t) ∧
    (∃ n t, readPartial 3 (sampleReads.take n) = some t ∧
      ReadsExactly 3 (sampleReads.take n) t) ∧
    [sampleRead false, sampleRead true].flatMap (·.done.bytes) = [sampleWrite].flatMap (·.buf) := by
  have after : ∀ replies, Fitting maxRwSize 3 3 replies := by
    intro replies
    cases replies with
    | nil => trivial
    | cons reply replies => exact fun more => absurd more (lt_irrefl 3)
  have written : Answered maxRwSize 3 0 (sampleAnswers.map SysWrite.reply) := by
    refine ⟨fun n => ?_, fun n => ⟨n + 2, by omega, by simp [sampleAnswers, SysWrite.reply]⟩⟩
    match n with
    | 0 => trivial
    | 1 => exact fun _ => trivial
    | 2 => exact fun _ _ => ⟨by decide, trivial⟩
    | n + 3 => exact fun _ _ => ⟨by decide, fun _ => ⟨by decide, after _⟩⟩
  have read : Answered maxRwSize 3 0 (sampleReads.map SysRead.reply) := by
    refine ⟨fun n => ?_, fun n => ⟨n + 2, by omega, by simp [sampleReads, SysRead.reply]⟩⟩
    match n with
    | 0 => trivial
    | 1 => exact fun _ => ⟨by decide, trivial⟩
    | 2 => exact fun _ => ⟨by decide, fun _ => trivial⟩
    | n + 3 => exact fun _ => ⟨by decide, fun _ _ => ⟨by decide, after _⟩⟩
  obtain ⟨writes, reads, back⟩ := io_exact
  exact ⟨writes [5, 6, 7] sampleAnswers written, reads 3 sampleReads read,
    (back [sampleWrite] [sampleRead false, sampleRead true] (by decide) (by decide) (by decide)).2
      (by decide)⟩

end Enuwatch.Net

import Enuwatch.Daemon.Decoder
import Enuwatch.Daemon.Moves

/-!
# A connection follows the decoder

A connection state represents a phase of the decoder: the received part of what is being
collected fills the front of a buffer, `progress` is how far it reaches and `goal` is where
it ends (`Represents`). A connection is on track when its state represents a phase at which
its stream stands and the calls issued for it so far are the ones the stream asked for
(`Tracks`).

Every move keeps a connection on track (`Tracks.move`), and when a chain of moves is cut
short the calls issued are still among those the stream asks for (`Tracks.abort`).
-/

set_option autoImplicit false

namespace Enuwatch.Daemon

open Enuwatch.Lib Enuwatch.Net

/-- The calls issued for one connection. -/
def issuedBy (k : ℕ) (calls : List Call) : List Issued :=
  (calls.filter (·.conn = k)).map fun call => ⟨call.seq, call.op⟩

@[simp] theorem issuedBy_nil (k : ℕ) : issuedBy k [] = [] := rfl

theorem issuedBy_append (k : ℕ) (first second : List Call) :
    issuedBy k (first ++ second) = issuedBy k first ++ issuedBy k second := by
  simp [issuedBy]

@[simp] theorem issuedBy_cons (k : ℕ) (call : Call) (calls : List Call) :
    issuedBy k (call :: calls) =
      if call.conn = k then ⟨call.seq, call.op⟩ :: issuedBy k calls else issuedBy k calls := by
  by_cases own : call.conn = k <;> simp [issuedBy, own]

/-- The received part of what is being collected fills the front of a buffer. -/
inductive Represents (fs : Fs) (st : ConnectionState) : Phase → Prop
  | connected (kind : st.kind = .connected) (progress : st.progress = 0) (goal : st.goal = 0)
      (buf : st.buf = []) : Represents fs st (.header [])
  | header {got : Bytes} (kind : st.kind = .headerP1) (fits : got.length ≤ DataMessage.size)
      (progress : st.progress = got.length) (goal : st.goal = DataMessage.size)
      (buf : st.buf = got ++ zeros (DataMessage.size - got.length)) :
      Represents fs st (.header got)
  | path {hdr got : Bytes} (kind : st.kind = .headerP2) (whole : hdr.length = DataMessage.size)
      (fits : got.length ≤ pathLen hdr) (progress : st.progress = DataMessage.size + got.length)
      (goal : st.goal = DataMessage.size + pathLen hdr)
      (buf : st.buf = hdr ++ got ++ zeros (pathLen hdr - got.length)) :
      Represents fs st (.path hdr got)
  | payload {hdr dest got : Bytes} (kind : st.kind = .receiving)
      (whole : hdr.length = DataMessage.size) (named : dest.length = pathLen hdr)
      (regular : isRegular hdr) (fits : got.length ≤ fsize hdr)
      (progress : st.progress = got.length) (goal : st.goal = fsize hdr)
      (buf : st.buf = hdr ++ dest) (path : st.path = dest)
      (seq : st.seq = (DataMessage.decode hdr).seq)
      (mapped : 0 < fsize hdr → ∃ ino, st.anonBuf = some ino ∧ ino < fs.nextIno ∧
        fs.data ino = got ++ zeros (fsize hdr - got.length)) :
      Represents fs st (.payload hdr dest got)

/-- The connection is on track at phase `p`. No message sets `perms`. -/
structure Tracks (w : World) (k : ℕ) (st : ConnectionState) (p : Phase) : Prop where
  perms : st.perms = 0
  state : Represents w.fs st p
  stands : StandsAt (w.received k) p (issuedBy k w.calls)

/-- The calls issued are among those the stream asks for. -/
def Prefixed (w : World) (k : ℕ) : Prop :=
  issuedBy k w.calls <+: issuedAfter (w.received k)

section Kinds

variable {fs : Fs} {st : ConnectionState} {p : Phase}

/-- Outside `Connected`, what is missing is what lies between progress and goal. -/
theorem Represents.need (state : Represents fs st p) (kind : st.kind ≠ .connected) :
    p.need = st.goal - st.progress := by
  cases state with
  | connected here => exact absurd here kind
  | header _ _ progress goal => simp only [Phase.need, progress, goal]
  | path _ _ _ progress goal =>
      simp only [Phase.need, progress, goal]
      omega
  | payload _ _ _ _ _ progress goal => simp only [Phase.need, progress, goal]

theorem Represents.sane (state : Represents fs st p) : st.Sane := by
  cases state with
  | connected kind progress goal =>
      exact ⟨by simp [progress], by simp [goal], fun _ => progress, by simp [kind]⟩
  | header kind fits progress goal =>
      exact ⟨by simp [progress, goal, fits], by simp [goal, DataMessage.size], by simp [kind],
        fun _ => goal⟩
  | @path hdr got kind _ fits progress goal =>
      have small := (DataMessage.decode hdr).pathLen.toNat_lt
      refine ⟨by omega, ?_, by simp [kind], by simp [kind]⟩
      simp only [goal, DataMessage.size, pathLen]
      omega
  | @payload hdr _ _ kind _ _ _ fits progress goal =>
      refine ⟨by omega, ?_, by simp [kind], by simp [kind]⟩
      rw [goal]
      exact (DataMessage.decode hdr).fsize.toNat_lt

/-- A state at rest waits for at least one byte. -/
theorem Represents.need_of_atRest (state : Represents fs st p) (rest : st.AtRest) :
    p.need ≠ 0 := by
  by_cases kind : st.kind = .connected
  · cases state with
    | connected => decide
    | header other => simp [kind] at other
    | path other => simp [kind] at other
    | payload other => simp [kind] at other
  · have missing := rest.resolve_left kind
    rw [state.need kind]
    omega

/-- A block that fits extends what is represented. -/
theorem Represents.stored (state : Represents fs st p) (kind : st.kind ≠ .connected)
    {block : Bytes} (fits : block.length ≤ p.need) :
    Represents ((targetOf st.kind).storeFs block st fs) (st.stored (targetOf st.kind) block)
      (p.extend block) := by
  cases state with
  | connected here => exact absurd here kind
  | @header got here within progress goal buf =>
      simp only [Phase.need] at fits
      simp only [here, targetOf, Target.storeFs, ConnectionState.stored, Target.storeState]
      refine .header rfl ?_ ?_ goal ?_
      · simp only [List.length_append]
        omega
      · simp [progress]
      · simp only [buf, progress, overwrite_filled, List.length_append, Nat.sub_sub]
  | @path hdr got here whole within progress goal buf =>
      simp only [Phase.need] at fits
      simp only [here, targetOf, Target.storeFs, ConnectionState.stored, Target.storeState]
      refine .path rfl whole ?_ ?_ goal ?_
      · simp only [List.length_append]
        omega
      · simp only [progress, List.length_append, Nat.add_assoc]
      · have mark : st.progress = (hdr ++ got).length := by
          simp [progress, whole]
        simp only
        rw [buf, mark, overwrite_filled, List.length_append, Nat.sub_sub, List.append_assoc hdr]
  | @payload hdr dest got here whole named regular within progress goal buf path seq mapped =>
      simp only [Phase.need] at fits
      simp only [here, targetOf, Target.storeFs, ConnectionState.stored, Target.storeState]
      refine .payload rfl whole named regular ?_ ?_ goal buf path seq ?_
      · simp only [List.length_append]
        omega
      · simp [progress]
      · intro positive
        obtain ⟨ino, buffer, old, data⟩ := mapped positive
        refine ⟨ino, buffer, by simpa using old, ?_⟩
        simp only [buffer, Fs.store, Function.update_self, data, progress, overwrite_filled,
          List.length_append, Nat.sub_sub]

/-- A complete path, with what it sits behind. -/
theorem Represents.path_complete (state : Represents fs st p) (kind : st.kind = .headerP2)
    (full : st.progress = st.goal) : ∃ hdr dest, p = .path hdr dest ∧
      hdr.length = DataMessage.size ∧ dest.length = pathLen hdr ∧ st.buf = hdr ++ dest ∧
      st.msg = DataMessage.decode hdr ∧ st.parsed.path = dest := by
  cases state with
  | connected other => simp [kind] at other
  | header other => simp [kind] at other
  | @path hdr got _ whole fits progress goal buf =>
      have named : got.length = pathLen hdr := by omega
      have buf : st.buf = hdr ++ got := by simpa [named] using buf
      have msg : st.msg = DataMessage.decode hdr := by
        rw [ConnectionState.msg, buf, DataMessage.decode_append whole]
      refine ⟨hdr, got, rfl, whole, named, buf, msg, ?_⟩
      simp [ConnectionState.parsed, msg, buf, ← whole, ← named]
  | payload other => simp [kind] at other

/-- During a transfer the mapping holds what was received, and zeros where more is to come. -/
theorem Represents.payload_eq {hdr dest got : Bytes}
    (state : Represents fs st (.payload hdr dest got)) :
    st.payload fs = got ++ zeros (fsize hdr - got.length) := by
  cases state with
  | payload kind whole named regular fits progress goal buf path seq mapped =>
      by_cases positive : 0 < fsize hdr
      · obtain ⟨ino, buffer, -, data⟩ := mapped positive
        simp only [ConnectionState.payload, buffer, goal, data]
        refine List.take_of_length_le ?_
        simp only [List.length_append, length_zeros]
        omega
      · -- An empty file is not mapped: the mapping of an earlier transfer may still be there.
        have empty : got = [] := List.eq_nil_of_length_eq_zero (by omega)
        have nothing : fsize hdr = 0 := by omega
        unfold ConnectionState.payload
        split <;> simp [goal, nothing, empty]

theorem Represents.exists_payload (state : Represents fs st p) (kind : st.kind = .receiving) :
    ∃ hdr dest got, p = .payload hdr dest got := by
  cases state with
  | connected other => simp [kind] at other
  | header other => simp [kind] at other
  | path other => simp [kind] at other
  | payload => exact ⟨_, _, _, rfl⟩

/-- Complete contents are what the mapping holds. -/
theorem Represents.payload_complete (state : Represents fs st p) (kind : st.kind = .receiving)
    (full : st.progress = st.goal) : ∃ hdr dest got, p = .payload hdr dest got ∧
      got.length = fsize hdr ∧ st.path = dest ∧ st.seq = (DataMessage.decode hdr).seq ∧
      st.payload fs = got := by
  obtain ⟨hdr, dest, got, rfl⟩ := state.exists_payload kind
  have contents := state.payload_eq
  cases state with
  | payload _ _ _ _ _ progress goal _ path seq =>
      have complete : got.length = fsize hdr := by omega
      exact ⟨hdr, dest, got, rfl, complete, path, seq, by simpa [complete] using contents⟩

end Kinds

/-! ## Every move keeps a connection on track -/

section Tracks

variable {w w' : World} {k : ℕ} {st st' : ConnectionState} {p : Phase}

theorem Tracks.prefixed (tracks : Tracks w k st p) : Prefixed w k := tracks.stands.isPrefix

/-- Issuing less on the same stream. -/
theorem Prefixed.fewer (prefixed : Prefixed w k) (received : w'.received = w.received)
    (calls : issuedBy k w'.calls <+: issuedBy k w.calls) : Prefixed w' k := by
  unfold Prefixed at prefixed ⊢
  rw [received]
  exact calls.trans prefixed

theorem Tracks.arm (tracks : Tracks w k st p) (kind : st.kind = .connected) :
    Tracks w k { st with
      buf := resize st.buf DataMessage.size, kind := .headerP1, goal := DataMessage.size } p := by
  obtain ⟨perms, state, stands⟩ := tracks
  refine ⟨perms, ?_, stands⟩
  cases state with
  | connected _ progress _ buf =>
      exact .header rfl (Nat.zero_le _) progress rfl (by simp [buf, resize_nil])
  | header other => simp [kind] at other
  | path other => simp [kind] at other
  | payload other => simp [kind] at other

theorem Tracks.read (tracks : Tracks w k st p) (kind : st.kind ≠ .connected) {block : Bytes}
    (unused : List SysRead) (fits : block.length ≤ st.goal - st.progress) :
    Tracks (w.receive k block unused ((targetOf st.kind).storeFs block st w.fs)) k
      (st.stored (targetOf st.kind) block) (p.extend block) := by
  have need := tracks.state.need kind
  refine ⟨?_, tracks.state.stored kind (by omega), ?_⟩
  · cases target : targetOf st.kind <;>
      simpa [ConnectionState.stored, Target.storeState, target] using tracks.perms
  · simpa using tracks.stands.extend (by omega)

theorem Tracks.header (tracks : Tracks w k st p) (kind : st.kind = .headerP1)
    (full : st.progress = st.goal) : ∃ hdr, Tracks w k st.awaitPath (.path hdr []) := by
  obtain ⟨perms, state, stands⟩ := tracks
  cases state with
  | connected other => simp [kind] at other
  | @header got _ fits progress goal buf =>
      have whole : got.length = DataMessage.size := by omega
      have exact_buf : st.buf = got := by simpa [whole] using buf
      refine ⟨got, perms, .path rfl whole (Nat.zero_le _) ?_ ?_ ?_, stands.header_complete whole⟩
      · simp [ConnectionState.awaitPath, progress, whole]
      · simp [ConnectionState.awaitPath, goal, ConnectionState.msg, exact_buf]
      · simp only [ConnectionState.awaitPath, ConnectionState.msg, exact_buf, goal, ← whole]
        simpa using resize_grow got _
  | path other => simp [kind] at other
  | payload other => simp [kind] at other

theorem Tracks.opened (tracks : Tracks w k st p) (kind : st.kind = .headerP2)
    (full : st.progress = st.goal) (regular : st.msg.ftype = FileType.regular.code)
    (temp : Bytes) : ∃ hdr dest,
    Tracks (w.mmap k st.msg.seq temp st.msg.fsize.toNat true) k
      (st.opened w.table.next w.fs.nextIno temp) (.payload hdr dest []) := by
  obtain ⟨perms, state, stands⟩ := tracks
  obtain ⟨hdr, dest, rfl, whole, named, buf, msg, path⟩ := state.path_complete kind full
  rw [msg] at regular
  refine ⟨hdr, dest, perms, .payload rfl whole named regular (Nat.zero_le _) rfl ?_ buf path ?_ ?_,
    ?_⟩
  · simp [ConnectionState.opened, msg]
  · simp [ConnectionState.opened, ConnectionState.parsed, msg]
  · intro positive
    have some : st.msg.fsize > 0 := by
      rw [msg]
      exact UInt64.lt_iff_toNat_lt.2 (by simpa using positive)
    refine ⟨w.fs.nextIno, by simp only [ConnectionState.opened, if_pos some], by simp, ?_⟩
    simp [Fs.truncate, Fs.create, resize_nil, msg]
  · have issued := stands.path_regular named regular
    simpa [issuedBy_append, msg, opening, apply_ite (issuedBy k)] using issued

theorem Tracks.made (tracks : Tracks w k st p) (kind : st.kind = .headerP2)
    (full : st.progress = st.goal) (other : st.msg.ftype ≠ FileType.regular.code) (fd : ℤ) :
    Tracks ((w.mkdir k st.msg.seq st.parsed.path st.perms true).close fd) k st.parsed.idle
      (.header []) := by
  obtain ⟨perms, state, stands⟩ := tracks
  obtain ⟨hdr, dest, rfl, whole, named, buf, msg, path⟩ := state.path_complete kind full
  rw [msg] at other
  have issued := stands.path_other named other
  refine ⟨perms, .connected rfl rfl rfl rfl, ?_⟩
  simpa [issuedBy_append, msg, path, perms] using issued

theorem Tracks.published (tracks : Tracks w k st p) (kind : st.kind = .receiving)
    (full : st.progress = st.goal) (anonFiles : List Bytes) (fd : ℤ) :
    Tracks (({ w.rename k st.seq (st.payload w.fs) st.anonPath st.path true with
      anonFiles := anonFiles } : World).close fd) k st.idle (.header []) := by
  obtain ⟨perms, state, stands⟩ := tracks
  obtain ⟨hdr, dest, got, rfl, complete, path, seq, contents⟩ := state.payload_complete kind full
  have issued := stands.payload_complete complete
  refine ⟨perms, .connected rfl rfl rfl rfl, ?_⟩
  simpa [issuedBy_append, path, seq, contents] using issued

/-- **Every move keeps a connection on track.** -/
theorem Tracks.move (tracks : Tracks w k st p) (move : Move k (st, w) (st', w')) :
    ∃ p', Tracks w' k st' p' := by
  cases move with
  | arm kind => exact ⟨p, tracks.arm kind⟩
  | read block unused kind fits _ => exact ⟨_, tracks.read kind unused fits⟩
  | header kind full =>
      obtain ⟨hdr, tracks⟩ := tracks.header kind full
      exact ⟨_, tracks⟩
  | opened temp kind full regular free =>
      obtain ⟨hdr, dest, tracks⟩ := tracks.opened kind full regular temp
      exact ⟨_, tracks⟩
  | made kind full other free => exact ⟨_, tracks.made kind full other _⟩
  | published kind full can => exact ⟨_, tracks.published kind full _ _⟩

theorem Tracks.chain {s s' : ConnectionState × World} (chain : Chain k s s')
    (tracks : ∃ p, Tracks s.2 k s.1 p) : ∃ p, Tracks s'.2 k s'.1 p := by
  induction chain with
  | refl => exact tracks
  | tail _ move ih =>
      obtain ⟨p, tracks⟩ := ih
      exact tracks.move move

/-- A chain of moves that is cut short has issued only what the stream asks for. -/
theorem Tracks.abort {e : Exit} (tracks : Tracks w k st p) (abort : Abort k (st, w) e w')
    (answered : e ≠ .blocked) : Prefixed w' k := by
  cases abort with
  | blocked => exact absurd rfl answered
  | read block unused kind short _ _ => exact (tracks.read kind unused short.le).prefixed
  | mkstemp temp kind full regular =>
      obtain ⟨hdr, dest, opened⟩ := tracks.opened kind full regular temp
      exact opened.prefixed.fewer (by simp) (by simp [issuedBy_append])
  | ftruncate temp kind full regular free =>
      obtain ⟨hdr, dest, opened⟩ := tracks.opened kind full regular temp
      exact opened.prefixed.fewer (by simp) (by simp [issuedBy_append])
  | mmap temp kind full regular free some =>
      obtain ⟨hdr, dest, opened⟩ := tracks.opened kind full regular temp
      exact opened.prefixed.fewer (by simp) (by simp [issuedBy_append, some])
  | mkdir kind full other =>
      exact (tracks.made kind full other (-1)).prefixed.fewer (by simp) (by simp [issuedBy_append])
  | rename kind full =>
      exact (tracks.published kind full [] (-1)).prefixed.fewer (by simp) (by simp [issuedBy_append])

end Tracks

end Enuwatch.Daemon

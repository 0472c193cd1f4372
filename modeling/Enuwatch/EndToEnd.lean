import Enuwatch.Daemon.Mirror
import Enuwatch.Sync.Framing

/-!
# From the client's threads to the remote tree

The two sides are put together at the wire: a connection of the daemon is fed with what one thread
of the client has written. Nothing else of the way between them is assumed, and the two run as
they like.

Whatever becomes of the client and whatever it has failed to write, the daemon acts on a connection
as the calls of `send_datamsg` on that thread ask for, one after the other and from the first one
on, and never on a part of a message (`acts_on_calls`). When `sync_with_remote` has returned true
and everything has arrived, the remote tree is the scanned one (`mirrored_of_wired`).
-/

set_option autoImplicit false

namespace Enuwatch

open Enuwatch.Lib Enuwatch.Daemon

/-! ## The message of a call -/

namespace SendCall

variable (call : SendCall)

/-- What a call asks the daemon for. -/
def op : FsOp :=
  if call.info.ftype = .regular then .rename (call.relPath.getD []) call.contents
  else .mkdir (call.relPath.getD []) 0

/-- The operation with its sequence number. -/
def issued : Issued := ⟨call.seq, call.op⟩

/-- The message that a call is to write, when its path is short enough. -/
def message {relPath : Bytes} (short : relPath.length ≤ 65535) : Message where
  hdr := (call.header relPath).encode call.pad
  path := relPath
  contents := call.contents
  whole := DataMessage.length_encode _ _
  named := by
    simp only [pathLen, DataMessage.decode_encode, header]
    rw [UInt16.toNat_ofNat_of_lt' (by simpa [UInt16.size] using Nat.lt_succ_of_le short)]
  sized := by
    simp only [isRegular, fsize, DataMessage.decode_encode, header, FileType.code_eq_regular,
      contents]
    split
    · exact length_mapped _ _
    · rfl

variable {call} {relPath : Bytes}

theorem message_issued (named : call.relPath = some relPath) (short : relPath.length ≤ 65535) :
    (⟨(call.message short).seq, (call.message short).op⟩ : Issued) = call.issued := by
  have regular : isRegular (call.message short).hdr ↔ call.info.ftype = .regular := by
    simp only [isRegular, message, DataMessage.decode_encode, header, FileType.code_eq_regular]
  have same : (call.message short).op = call.op := by
    simp only [Message.op, op, named, Option.getD_some]
    exact if_congr regular rfl rfl
  rw [issued, same]
  simp [Message.seq, message, DataMessage.decode_encode, header]

end SendCall

/-- **A call writes the message of its operation or the beginning of it**, or nothing. -/
theorem sendDatamsg_message {call : SendCall} {r : SendRun} (ran : sendDatamsg call = some r) :
    (∃ m : Message, ⟨m.seq, m.op⟩ = call.issued ∧ r.written <+: m.bytes ∧
      (r.outcome = .returned true → r.written = m.bytes)) ∨
    r.written = [] ∧ r.outcome ≠ .returned true := by
  rcases sendDatamsg_wire ran with ⟨message, own, front, whole⟩ | ⟨-, nothing⟩
  · obtain ⟨relPath, named, short, rfl⟩ := SendCall.wire_inv own
    exact .inl ⟨call.message short, SendCall.message_issued named short, front, whole⟩
  · exact .inr nothing

/-! ## The messages of a thread -/

namespace Sync

variable {N : Type}

/-- Calls of which only the last may have failed write the messages they are to write, and the
beginning of the last one. -/
theorem Unbroken.messages {calls : List (Send N)} (unbroken : Unbroken calls)
    (ran : ∀ e ∈ calls, sendDatamsg e.call = some e.result) :
    ∃ ms : List Message, calls.flatMap (·.result.written) <+: ms.flatMap Message.bytes ∧
      (ms.map fun m => (⟨m.seq, m.op⟩ : Issued)) <+: calls.map (·.call.issued) ∧
      ((∀ e ∈ calls, e.Success) →
        calls.flatMap (·.result.written) = ms.flatMap Message.bytes ∧
          (ms.map fun m => (⟨m.seq, m.op⟩ : Issued)) = calls.map (·.call.issued)) := by
  induction calls with
  | nil => exact ⟨[], List.prefix_rfl, List.prefix_rfl, fun _ => ⟨rfl, rfl⟩⟩
  | cons e calls ih =>
      obtain ⟨ms, bytes, issued, all⟩ := ih unbroken.tail fun e' later =>
        ran e' (List.mem_cons_of_mem _ later)
      rcases sendDatamsg_message (ran e List.mem_cons_self) with
        ⟨m, same, front, whole⟩ | ⟨nothing, failed⟩
      · by_cases success : e.Success
        · -- The message is complete, and the rest follows it.
          refine ⟨m :: ms, ?_, ?_, fun every => ?_⟩
          · rw [List.flatMap_cons, List.flatMap_cons, whole success]
            exact (List.prefix_append_right_inj _).2 bytes
          · rw [List.map_cons, List.map_cons, same]
            exact (List.prefix_cons_inj _).2 issued
          · obtain ⟨rest, others⟩ := all fun e' later => every e' (List.mem_cons_of_mem _ later)
            refine ⟨?_, ?_⟩
            · rw [List.flatMap_cons, List.flatMap_cons, whole success, rest]
            · rw [List.map_cons, List.map_cons, same, others]
        · obtain rfl := unbroken [] e calls rfl success
          refine ⟨[m], ?_, ?_, fun every => absurd (every e List.mem_cons_self) success⟩
          · simpa using front
          · simp [same]
      · obtain rfl := unbroken [] e calls rfl failed
        refine ⟨[], ?_, List.nil_prefix, fun every => absurd (every e List.mem_cons_self) failed⟩
        simp [nothing]

variable [DecidableEq N] {T : Tree N} {table : Slots PipeEnd} {pid : ℤ} {basePort : UInt16}
  {s : Client N}

/-- What the bytes of a thread ask for. -/
theorem finals_bytesOf (reachable : Reachable (step T) (start T table pid basePort) s)
    (thread : ℕ) :
    finals (issuedAfter (s.bytesOf thread)) <+: (s.callsOf thread).map (·.call.issued) := by
  have framed := reachable_framed reachable
  obtain ⟨ms, bytes, issued, -⟩ := (framed.unbroken thread).messages fun e called =>
    framed.ran e (List.mem_of_mem_filter called)
  have asked := (issuedAfter_isPrefix bytes).filter (·.op.isFinal)
  rw [issuedAfter_messages] at asked
  exact (asked.trans (finals_messages ms ▸ List.prefix_rfl)).trans issued

/-- When all calls of a thread went through, its bytes ask for all of them and end with a whole
message. -/
theorem finals_bytesOf_all (reachable : Reachable (step T) (start T table pid basePort) s)
    {thread : ℕ} (all : ∀ e ∈ s.callsOf thread, e.Success) :
    finals (issuedAfter (s.bytesOf thread)) = (s.callsOf thread).map (·.call.issued) ∧
      phaseAfter (s.bytesOf thread) = .header [] := by
  have framed := reachable_framed reachable
  obtain ⟨ms, -, -, exact_⟩ := (framed.unbroken thread).messages fun e called =>
    framed.ran e (List.mem_of_mem_filter called)
  obtain ⟨bytes, issued⟩ := exact_ all
  have whole : s.bytesOf thread = ms.flatMap Message.bytes := bytes
  rw [whole, issuedAfter_messages, finals_messages, phaseAfter_messages]
  exact ⟨issued, rfl⟩

/-! ## The calls of a run that returns true -/

/-- The contents that were sent for a node. -/
def Client.contentsOf (s : Client N) (n : N) : Bytes :=
  ((s.sends.find? (·.node = n)).map (·.call.contents)).getD []

/-- A node is sent once, so the contents sent for it are those of its call. -/
theorem contentsOf_eq (reachable : Reachable (step T) (start T table pid basePort) s)
    {e : Send N} (logged : e ∈ s.sends) : s.contentsOf e.node = e.call.contents := by
  have once := (reachable_sound reachable).1.log.once
  have found : (s.sends.find? (·.node = e.node)).isSome :=
    List.find?_isSome.2 ⟨e, logged, by simp⟩
  obtain ⟨e', first⟩ := Option.isSome_iff_exists.1 found
  have node : e'.node = e.node := by simpa using List.find?_some first
  obtain rfl := List.inj_on_of_nodup_map once (List.mem_of_find?_eq_some first) logged node
  rw [Client.contentsOf, first, Option.map_some, Option.getD_some]

end Sync

/-! ## Both sides -/

section Wire

variable {N : Type} [DecidableEq N] {T : Tree N} {table : Slots PipeEnd} {pid : ℤ}
  {basePort : UInt16} {s : Sync.Client N} {inherited : List Bool} {fs : Fs}
  {dmsg : DaemonInitMessage} {d : Server}

/-- **The daemon does what the calls of a thread ask for.** However the client and the daemon go
on or end, and whatever the client failed to write: what the daemon has done for a connection is
what the first calls of `send_datamsg` on the thread that feeds it ask for, in their order. It has
done all of it when all of them went through, all bytes have arrived and the daemon still runs. -/
theorem acts_on_calls (client : Reachable (Sync.step T) (Sync.start T table pid basePort) s)
    (server : Reachable Daemon.step (Daemon.start inherited fs dmsg) d) {k thread : ℕ}
    (arrived : d.world.received k <+: s.bytesOf thread) :
    finals (issuedBy k d.world.calls) <+: (s.callsOf thread).map (·.call.issued) ∧
    (d.status = .running → d.world.received k = s.bytesOf thread →
      (∀ e ∈ s.callsOf thread, e.Success) →
      finals (issuedBy k d.world.calls) = (s.callsOf thread).map (·.call.issued)) := by
  have invariant := reachable_invariant server
  constructor
  · exact (((invariant.prefixed k).filter _).trans ((issuedAfter_isPrefix arrived).filter _)).trans
      (Sync.finals_bytesOf client thread)
  · intro running whole all
    rw [invariant.complete (invariant.running running) k, whole]
    exact (Sync.finals_bytesOf_all client all).1

/-- Every connection of the daemon has received what one thread wrote, and every thread that wrote
something has a connection. -/
structure Wired (s : Sync.Client N) (label : ℕ → ℕ) (w : World) : Prop where
  whole : ∀ k < w.accepted, w.received k = s.bytesOf (label k)
  covers : ∀ thread, s.callsOf thread ≠ [] → ∃ k < w.accepted, label k = thread

/-- **When `sync_with_remote` has returned true and its bytes have arrived, the remote tree is the
scanned one.** The client sends with any number of threads in any interleaving, each thread has a
connection of its own, and the daemon takes from them in any order. If the paths that were sent are
those of the tree and the daemon is still there, every node is at its path, each file with the
contents that were read, and everything else is as it was. -/
theorem mirrored_of_wired (distinct : T.Distinct)
    (client : Reachable (Sync.step T) (Sync.start T table pid basePort) s)
    (returned : s.status = .returned true)
    (paths : ∀ e ∈ s.sends, e.call.relPath = some (T.sentPath e.node))
    (server : Reachable Daemon.step (Daemon.start inherited fs dmsg) d)
    (running : d.status = .running) (spared : Spared fs.cwd d.world.calls) {label : ℕ → ℕ}
    (wired : Wired s label d.world) : Mirrored T s.contentsOf fs d.world.fs := by
  obtain ⟨all, sent⟩ := Sync.sent_of_returned client returned
  have logged := Sync.reachable_logged client
  have calls := logged.calls (by simp [returned])
  have orderly := reachable_callsOrderly server
  have success : ∀ thread, ∀ e ∈ s.callsOf thread, e.Success := fun thread e called =>
    all e (calls ▸ List.mem_of_mem_filter called)
  -- The operation of a call is that of its node.
  have op : ∀ e ∈ s.sends, e.call.op = nodeOp T s.contentsOf e.node := by
    intro e member
    rw [SendCall.op, nodeOp, logged.info e member, paths e member, Option.getD_some,
      Sync.contentsOf_eq client member]
  have asked : ∀ k < d.world.accepted, finals (issuedAfter (d.world.received k)) =
      (s.callsOf (label k)).map (·.call.issued) := by
    intro k accepted
    rw [wired.whole k accepted]
    exact (Sync.finals_bytesOf_all client (success _)).1
  refine mirrored_of_completed distinct server running spared (fun k => ?_) fun op' => ⟨?_, ?_⟩
  · by_cases accepted : k < d.world.accepted
    · rw [wired.whole k accepted]
      exact (Sync.finals_bytesOf_all client (success _)).2
    · rw [(orderly.unborn k (Nat.le_of_not_lt accepted)).1]
      rfl
  · rintro ⟨k, seq, issued⟩
    by_cases accepted : k < d.world.accepted
    · rw [asked k accepted] at issued
      obtain ⟨e, called, same⟩ := List.mem_map.1 issued
      have member : e ∈ s.sends := calls ▸ List.mem_of_mem_filter called
      exact ⟨e.node, (op e member).symm.trans (congrArg Issued.op same)⟩
    · rw [(orderly.unborn k (Nat.le_of_not_lt accepted)).1] at issued
      cases issued
  · rintro ⟨n, rfl⟩
    obtain ⟨e, member, rfl, -⟩ := sent n
    have called : e ∈ s.callsOf e.thread := List.mem_filter.2 ⟨calls ▸ member, by simp⟩
    obtain ⟨k, accepted, feeds⟩ := wired.covers e.thread (List.ne_nil_of_mem called)
    refine ⟨k, e.call.seq, ?_⟩
    rw [asked k accepted, feeds, ← op e member]
    exact List.mem_map.2 ⟨e, called, rfl⟩

end Wire

/-! ## A sample run of both sides -/

/-- The message of a node of the client's sample tree. -/
def sampleMessage (n : Fin 3) : Bytes :=
  ((Sync.sampleCall n (.ofNat n)).header (Sync.sampleTree.sentPath n)).encode ⟨0, 0⟩ ++
    Sync.sampleTree.sentPath n

/-- The read calls in which a message of a directory or an empty file arrives. -/
def sampleReads (n : Fin 3) : List Net.SysRead :=
  [.data ((sampleMessage n).take 24), .data ((sampleMessage n).drop 24)]

/-- The daemon accepts two connections; then something arrives on both. -/
def twoReads (first second : List Net.SysRead) : List Daemon.Input :=
  [.poll [{ input := true }, { input := true }], .round {}, .round {}, .round {}, .round {},
    .poll [{}, {}, { input := true }, { input := true }], .round {}, .round {},
    .round { reads := first }, .round { reads := second }]

/-- The thread of the first child has written ten bytes when its write fails; they arrive. -/
theorem acts_on_calls_sample :
    ∃ s d, run (Sync.step Sync.sampleTree) Sync.sampleStart Sync.failingInputs = some s ∧
      run Daemon.step pairStart
        (twoReads (sampleReads 0) [.data ((sampleMessage 1).take 10), .retry, .zero]) = some d ∧
      s.ok = false ∧ d.world.received 1 = (sampleMessage 1).take 10 ∧
      finals (issuedBy 0 d.world.calls) = [(Sync.sampleCall 0 0).issued] ∧
      finals (issuedBy 1 d.world.calls) <+: (s.callsOf 1).map (·.call.issued) := by
  have sends : ∀ s ∈ run (Sync.step Sync.sampleTree) Sync.sampleStart Sync.failingInputs,
      s.ok = false ∧ s.bytesOf 0 = sampleMessage 0 ∧ s.bytesOf 1 = (sampleMessage 1).take 10 ∧
        (∀ e ∈ s.callsOf 0, e.Success) ∧
        (s.callsOf 0).map (·.call.issued) = [(Sync.sampleCall 0 0).issued] := by
    decide +kernel
  have hears : ∀ d ∈ run Daemon.step pairStart
      (twoReads (sampleReads 0) [.data ((sampleMessage 1).take 10), .retry, .zero]),
      d.status = .running ∧ d.world.received 0 = sampleMessage 0 ∧
        d.world.received 1 = (sampleMessage 1).take 10 := by
    decide +kernel
  obtain ⟨s, reaches⟩ := Option.isSome_iff_exists.1 (show (run (Sync.step Sync.sampleTree)
    Sync.sampleStart Sync.failingInputs).isSome by decide +kernel)
  obtain ⟨d, heard⟩ := Option.isSome_iff_exists.1 (show (run Daemon.step pairStart
    (twoReads (sampleReads 0) [.data ((sampleMessage 1).take 10), .retry, .zero])).isSome by
      decide +kernel)
  obtain ⟨failed, first, second, success, asked⟩ := sends s reaches
  obtain ⟨running, received₀, received₁⟩ := hears d heard
  have client : Reachable (Sync.step Sync.sampleTree)
      (Sync.start Sync.sampleTree ⟨[some .other, some .other, some .other]⟩ 7 50000) s :=
    ⟨_, reaches⟩
  have server : Reachable Daemon.step (Daemon.start [true, true, true] sampleFs ⟨50000, 2⟩) d :=
    ⟨_, heard⟩
  have whole : d.world.received 0 = s.bytesOf 0 := received₀.trans first.symm
  have part : d.world.received 1 = s.bytesOf 1 := received₁.trans second.symm
  refine ⟨s, d, reaches, heard, failed, received₁, ?_, ?_⟩
  · rw [← asked]
    exact (acts_on_calls client server (whole ▸ List.prefix_rfl)).2 running whole success
  · exact (acts_on_calls client server (part ▸ List.prefix_rfl)).1

end Enuwatch

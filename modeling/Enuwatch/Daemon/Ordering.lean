import Enuwatch.Daemon.Feed
import Enuwatch.Daemon.Replay
import Enuwatch.Daemon.Sending

/-!
# Parents before children

`recurse` sends a node after its parent, but the threads that run it have a connection each, and
the order of messages is kept on each connection only. The daemon acts on a message as soon as it
is complete.

When all messages of a tree travel on one connection, the daemon makes the directory of a parent
before it acts on a child, and what it leaves is what the messages give one after the other in the
order of sending. When they are spread over connections, some run acts on a child whose parent was
never made (`parents_first_iff`): the first message of a connection that does not carry the root
can be the first to arrive.
-/

set_option autoImplicit false

namespace Enuwatch.Daemon

open Enuwatch.Lib Enuwatch.Net

/-! ## The calls of every run -/

/-- A connection that was not accepted has sent nothing, and only the last call may have failed. -/
structure CallsOrderly (d : Server) : Prop where
  unborn : ∀ k, d.world.accepted ≤ k → Untouched d.world k
  ok : ∀ call ∈ d.world.calls.dropLast, call.ok = true

section Calls

variable {k : ℕ} {s : ConnectionState × World} {w : World} {d : Server}

theorem Abort.ok_dropLast (abort : Abort k s .fatal w) (unfailed : Unfailed s.2) :
    ∀ call ∈ w.calls.dropLast, call.ok = true := by
  unfold Unfailed at unfailed
  cases abort with
  | mkstemp => simpa only [World.mkstemp_calls, List.dropLast_concat] using unfailed
  | ftruncate =>
      simp only [World.ftruncate_calls, List.dropLast_concat, List.mem_append, List.mem_singleton]
      rintro call (old | rfl)
      · exact unfailed call old
      · rfl
  | mmap temp kind full regular free counted =>
      simp only [World.mmap_calls, World.ftruncate_calls, if_pos counted, List.dropLast_concat,
        List.mem_append, List.mem_singleton]
      rintro call ((old | rfl) | rfl)
      · exact unfailed call old
      · rfl
      · rfl
  | mkdir => simpa only [World.mkdir_calls, List.dropLast_concat] using unfailed
  | rename => simpa only [World.rename_calls, List.dropLast_concat] using unfailed

/-- A wake-up that is cut short touches its own connection only. -/
theorem Cut.unborn {e : Exit} (cut : Cut k s e w) (answered : e ≠ .blocked)
    (own : k < s.2.accepted) (unborn : ∀ j, s.2.accepted ≤ j → Untouched s.2 j) :
    ∀ j, w.accepted ≤ j → Untouched w j := by
  obtain ⟨⟨st, mid⟩, chain, abort⟩ := cut
  intro j later
  rw [abort.accepted answered, chain.frame.accepted] at later
  have other : j ≠ k := by omega
  obtain ⟨received, issued⟩ := abort.others answered other
  rw [Untouched, received, issued, chain.frame.received j other, chain.frame.issued j other]
  exact unborn j later

theorem CallsOrderly.of_unfailed (invariant : Invariant d) (alive : d.status ≠ .returned)
    (unfailed : Unfailed d.world) : CallsOrderly d :=
  ⟨(invariant.coherent alive unfailed).unborn,
    fun call among => unfailed call (List.dropLast_subset _ among)⟩

theorem CallsOrderly.event {d' : Server} {input : Input} (running : d.status = .running)
    (event : Event d input d') (invariant : Invariant d) : CallsOrderly d' := by
  have next := invariant.event running event
  have unfailed := invariant.running running
  have coherent := invariant.coherent (by simp [running]) unfailed
  cases event with
  | polled | interrupted | pollFailed | skipped | refused | admitted =>
      exact .of_unfailed next (by simp [running, Server.welcome]) unfailed
  | overflowed => exact .of_unfailed next (by simp [Server.overflow]) unfailed
  | @hungUp ans pfd here flagged =>
      refine .of_unfailed next (by simp [running, Server.hangUp]) ?_
      rwa [Unfailed, (hangUp_closes d pfd.fd).calls]
  | @woken ans pfd j st w here other conn chain rest =>
      exact .of_unfailed next (by simp [running, Server.wake]) (next.running running)
  | @returned ans pfd j st w here other conn cut =>
      have fields := returnFalse_fields { d with states := d.states.insert pfd.fd st } w
      have accepted := returnFalse_accepted { d with states := d.states.insert pfd.fd st } w
      have unborn := cut.unborn (by simp) (coherent.accepted _ _ conn) coherent.unborn
      have calm :=
        (Event.returned here other conn cut).unfailed unfailed (by simp [Server.returnFalse])
      refine ⟨?_, fun call among => calm call (List.dropLast_subset _ among)⟩
      intro j later
      rw [accepted] at later
      rw [Untouched, fields.1, fields.2]
      exact unborn j later
  | @failed ans pfd j w here other conn cut =>
      refine ⟨cut.unborn (by simp) (coherent.accepted _ _ conn) coherent.unborn, ?_⟩
      obtain ⟨mid, chain, abort⟩ := cut
      exact abort.ok_dropLast (Chain.unfailed chain unfailed)
  | dangling here other gone =>
      obtain ⟨j, conn⟩ := coherent.conn _ _ (coherent.stateOf here other) other
      exact absurd conn (gone j)

theorem reachable_callsOrderly {inherited : List Bool} {fs : Fs} {dmsg : DaemonInitMessage}
    (reachable : Reachable step (start inherited fs dmsg) d) : CallsOrderly d := by
  have both : Invariant d ∧ CallsOrderly d := by
    refine Server.invariant reachable (I := fun d => Invariant d ∧ CallsOrderly d)
      ⟨reachable_invariant (.refl _), fun _ _ => ⟨rfl, rfl⟩, nofun⟩ ?_
    rintro d input d' running event ⟨invariant, -⟩
    exact ⟨invariant.event running event, CallsOrderly.event running event invariant⟩
  exact both.2

/-- With one connection, all calls are for it. -/
theorem CallsOrderly.issuedBy_zero (orderly : CallsOrderly d) (one : d.world.accepted ≤ 1) :
    issuedBy 0 d.world.calls = d.world.calls.map fun call => ⟨call.seq, call.op⟩ := by
  have first : ∀ call ∈ d.world.calls, call.conn = 0 := by
    intro call among
    by_contra other
    have none := (orderly.unborn call.conn (by omega)).2
    rw [issuedBy, List.map_eq_nil_iff, List.filter_eq_nil_iff] at none
    simpa using none call among
  rw [issuedBy, List.filter_eq_self.2 fun call among => by simpa using first call among]

/-- A daemon without a listening socket accepts nothing. -/
theorem accepted_eq_zero {inherited : List Bool} {fs : Fs} {dmsg : DaemonInitMessage}
    (reachable : Reachable step (start inherited fs dmsg) d) (none : dmsg.nConns = 0) :
    d.world.accepted = 0 := by
  have both : d.socketFds = [] ∧ d.world.accepted = 0 := by
    refine Server.invariant reachable (I := fun d => d.socketFds = [] ∧ d.world.accepted = 0) ?_ ?_
    · refine ⟨List.length_eq_zero_iff.1 ?_, rfl⟩
      rw [(start_sockets inherited fs dmsg).2.2.1, none]
      rfl
    · rintro d input d' running event ⟨deaf, zero⟩
      cases event with
      | polled | interrupted | pollFailed | skipped => exact ⟨deaf, zero⟩
      | @hungUp ans pfd here flagged => exact ⟨deaf, (hangUp_closes d pfd.fd).accepted.trans zero⟩
      | refused here listener | admitted here listener | overflowed here listener =>
          simp [deaf] at listener
      | woken here other conn chain rest => exact ⟨deaf, chain.frame.accepted.trans zero⟩
      | returned here other conn cut =>
          obtain ⟨⟨st, mid⟩, chain, abort⟩ := cut
          exact ⟨rfl, (returnFalse_accepted _ _).trans
            ((abort.accepted nofun).trans (chain.frame.accepted.trans zero))⟩
      | failed here other conn cut =>
          obtain ⟨⟨st, mid⟩, chain, abort⟩ := cut
          exact ⟨deaf, (abort.accepted nofun).trans (chain.frame.accepted.trans zero)⟩
      | dangling => exact ⟨rfl, (returnFalse_accepted _ _).trans zero⟩
  exact both.2

end Calls

/-! ## Messages over connections -/

section Routes

variable {N C : Type} [DecidableEq C] {T : Tree N}

/-- What is written to one connection. -/
def Sending.stream (s : Sending T) (route : N → C) (c : C) : Bytes :=
  (s.order.filter (route · = c)).flatMap fun n => (s.send n).bytes

/-- The daemon accepted connections that messages travel on, each of them once, and some of what
was written to each has arrived. -/
structure Feeds (s : Sending T) (route : N → C) (label : ℕ → C) (w : World) : Prop where
  distinct : ∀ i j, i < w.accepted → j < w.accepted → label i = label j → i = j
  used : ∀ j < w.accepted, ∃ n, route n = label j
  arrived : ∀ j < w.accepted, w.received j <+: s.stream route (label j)

/-- Everything has arrived. -/
def Drained (s : Sending T) (route : N → C) (label : ℕ → C) (w : World) : Prop :=
  ∀ n, ∃ j < w.accepted, label j = route n ∧ w.received j = s.stream route (route n)

/-- Whatever a call acts on, the root apart, its parent was made by an earlier call. -/
def ParentsFirst (cwd root : Loc) (calls : List Call) : Prop :=
  ∀ before call after, calls = before ++ call :: after → ∀ path, call.op.target = some path →
    locate cwd path ≠ root → ∃ made ∈ before, made.ok = true ∧ ∃ parent mode,
      made.op = .mkdir parent mode ∧ locate cwd parent = (locate cwd path).dropLast

/-- In every run parents come first, and when everything has arrived the file system shows what
the messages give one after the other in the order of sending. -/
def InOrder (s : Sending T) (route : N → C) (dmsg : DaemonInitMessage) : Prop :=
  ∀ inherited fs d label, Reachable step (start inherited fs dmsg) d →
    Feeds s route label d.world →
    ParentsFirst fs.cwd (fs.cwd ++ T.path T.root) d.world.calls ∧
    (d.status = .running → Drained s route label d.world →
      ∃ t, Remote.replay fs.cwd fs.seenAt (s.order.map fun n => (s.send n).op) = some t ∧
        ∀ loc, d.world.fs.seenAt loc = t loc)

theorem Sending.target_op (s : Sending T) (n : N) :
    (s.send n).op.target = some (T.sentPath n) := by
  rw [s.op_eq]
  split <;> rfl

theorem FsOp.isFinal_of_target {op : FsOp} {path : Bytes} (target : op.target = some path) :
    op.isFinal = true := by
  cases op with
  | mkdir | rename => rfl
  | _ => cases target

/-- Calls that follow the order of sending make parents first. -/
theorem Sending.parentsFirst (s : Sending T) {calls : List Call} (cwd : Loc)
    (issued : finals (calls.map fun call => ⟨call.seq, call.op⟩) <+:
      s.order.map fun n => ⟨(s.send n).call.seq, (s.send n).op⟩)
    (ok : ∀ call ∈ calls.dropLast, call.ok = true) :
    ParentsFirst cwd (cwd ++ T.path T.root) calls := by
  rintro before call after rfl path target below
  -- The call is that of some node, and the calls before it are those of the nodes before.
  obtain ⟨rest, whole⟩ := issued
  have final := FsOp.isFinal_of_target target
  rw [List.map_append, finals_append, List.map_cons, finals, finals,
    List.filter_cons_of_pos (p := fun issued : Issued => issued.op.isFinal) final,
    List.append_assoc, List.cons_append] at whole
  obtain ⟨earlier, later, split, own, here⟩ := List.map_eq_append_iff.1 whole.symm
  obtain ⟨n, later, rfl, same, -⟩ := List.map_eq_cons_iff.1 here
  have act : (s.send n).op = call.op := congrArg Issued.op same
  obtain rfl : T.sentPath n = path := by
    rw [← act, s.target_op] at target
    exact Option.some.inj target
  rw [Tree.locate_sentPath] at below ⊢
  have other : n ≠ T.root := by
    rintro rfl
    exact below rfl
  obtain ⟨p, parent⟩ := Tree.exists_parent other
  -- So the parent is one of the nodes before.
  have among : (⟨(s.send p).call.seq, (s.send p).op⟩ : Issued) ∈
      (before.map fun call => (⟨call.seq, call.op⟩ : Issued)).filter (·.op.isFinal) := by
    rw [← own]
    exact List.mem_map_of_mem (s.parents earlier n later split p parent)
  obtain ⟨made, earlier, equal⟩ := List.mem_map.1 (List.mem_of_mem_filter among)
  have op : made.op = (s.send p).op := congrArg Issued.op equal
  refine ⟨made, earlier, ok made ?_, T.sentPath p, 0, op.trans (s.op_of_parent parent), ?_⟩
  · rw [List.dropLast_append_of_ne_nil (List.cons_ne_nil _ _)]
    exact List.mem_append_left _ earlier
  · rw [Tree.locate_sentPath, Tree.path_of_parent parent, ← List.append_assoc,
      List.dropLast_concat]

/-! ## One connection -/

variable {s : Sending T} {route : N → C} {label : ℕ → C} {inherited : List Bool} {fs : Fs}
  {dmsg : DaemonInitMessage} {d : Server}

/-- Some of the messages, in the order of sending, on the only connection. -/
theorem parentsFirst_of_one (reachable : Reachable step (start inherited fs dmsg) d)
    (one : d.world.accepted ≤ 1)
    (arrived : d.world.received 0 <+: s.order.flatMap fun n => (s.send n).bytes) :
    ParentsFirst fs.cwd (fs.cwd ++ T.path T.root) d.world.calls := by
  have orderly := reachable_callsOrderly reachable
  refine s.parentsFirst fs.cwd ?_ orderly.ok
  rw [← orderly.issuedBy_zero one, ← s.finals_issuedAfter]
  exact ((reachable_invariant reachable).prefixed 0).filter _ |>.trans
    ((issuedAfter_isPrefix arrived).filter _)

/-- All of the messages on the only connection. -/
theorem replay_of_one (reachable : Reachable step (start inherited fs dmsg) d)
    (running : d.status = .running) (one : d.world.accepted ≤ 1)
    (whole : d.world.received 0 = s.order.flatMap fun n => (s.send n).bytes) :
    ∃ t, Remote.replay fs.cwd fs.seenAt (s.order.map fun n => (s.send n).op) = some t ∧
      ∀ loc, d.world.fs.seenAt loc = t loc := by
  have invariant := reachable_invariant reachable
  have unfailed := invariant.running running
  have still : ¬ Transferring d.world := by
    rintro ⟨hdr, dest, got, phase⟩
    rw [whole, s.phaseAfter_flatMap] at phase
    cases phase
  obtain ⟨-, t, replay, shown⟩ := (reachable_replayed reachable running one).still still
  refine ⟨t, ?_, shown⟩
  have issued : finals (d.world.calls.map fun call => ⟨call.seq, call.op⟩) =
      s.order.map fun n => ⟨(s.send n).call.seq, (s.send n).op⟩ := by
    rw [← (reachable_callsOrderly reachable).issuedBy_zero one, invariant.complete unfailed 0,
      whole, s.finals_issuedAfter]
  have done : (doneOps d.world.calls).filter FsOp.isFinal =
      s.order.map fun n => (s.send n).op := by
    have ops := congrArg (List.map Issued.op) issued
    rw [doneOps, List.filter_eq_self.2 unfailed]
    simpa [finals, List.filter_map, Function.comp_def] using ops
  rw [← done, Remote.replay_filter]
  exact replay

theorem Feeds.accepted_le (feeds : Feeds s route label d.world)
    (single : ∀ n m, route n = route m) : d.world.accepted ≤ 1 := by
  by_contra more
  obtain ⟨n, first⟩ := feeds.used 0 (by omega)
  obtain ⟨m, second⟩ := feeds.used 1 (by omega)
  have same : label 0 = label 1 := by rw [← first, ← second, single n m]
  cases feeds.distinct 0 1 (by omega) (by omega) same

theorem stream_of_single (single : ∀ n m, route n = route m) (n : N) :
    s.stream route (route n) = s.order.flatMap fun n => (s.send n).bytes := by
  rw [Sending.stream, List.filter_eq_self.2 fun m _ => by simpa using single m n]

theorem Feeds.arrived_zero (feeds : Feeds s route label d.world)
    (single : ∀ n m, route n = route m) (orderly : CallsOrderly d) :
    d.world.received 0 <+: s.order.flatMap fun n => (s.send n).bytes := by
  by_cases none : d.world.accepted = 0
  · rw [(orderly.unborn 0 (by omega)).1]
    exact List.nil_prefix
  · obtain ⟨n, first⟩ := feeds.used 0 (by omega)
    have arrived := feeds.arrived 0 (by omega)
    rwa [← first, stream_of_single single] at arrived

theorem inOrder_of_single (single : ∀ n m, route n = route m) (dmsg : DaemonInitMessage) :
    InOrder s route dmsg := by
  intro inherited fs d label reachable feeds
  have one := feeds.accepted_le single
  refine ⟨parentsFirst_of_one reachable one
    (feeds.arrived_zero single (reachable_callsOrderly reachable)), fun running drained => ?_⟩
  obtain ⟨j, below, -, whole⟩ := drained T.root
  obtain rfl : j = 0 := by omega
  exact replay_of_one reachable running one (whole.trans (stream_of_single single _))

/-- Without a listening socket nothing arrives. -/
theorem inOrder_of_deaf (deaf : dmsg.nConns = 0) : InOrder s route dmsg := by
  intro inherited fs d label reachable feeds
  have none := accepted_eq_zero reachable deaf
  have arrived : d.world.received 0 <+: s.order.flatMap fun n => (s.send n).bytes := by
    rw [((reachable_callsOrderly reachable).unborn 0 (by omega)).1]
    exact List.nil_prefix
  refine ⟨parentsFirst_of_one reachable (by omega) arrived, fun running drained => ?_⟩
  · obtain ⟨j, below, -⟩ := drained T.root
    omega

/-! ## Several connections -/

/-- The first message of a connection that does not carry the root can come first. -/
theorem exists_parentless (listens : dmsg.nConns ≠ 0) {n : N}
    (apart : route n ≠ route T.root) :
    ∃ d label, Reachable step (start [] sampleFs dmsg) d ∧ Feeds s route label d.world ∧
      ¬ ParentsFirst sampleFs.cwd (sampleFs.cwd ++ T.path T.root) d.world.calls := by
  obtain ⟨m, rest, carried⟩ : ∃ m rest, s.order.filter (route · = route n) = m :: rest :=
    List.exists_cons_of_ne_nil (List.ne_nil_of_mem
      (List.mem_filter.2 ⟨s.all n, by simp⟩))
  have own : route m = route n := by
    have member : m ∈ s.order.filter (route · = route n) := by simp [carried]
    simpa using (List.mem_filter.1 member).2
  have below : m ≠ T.root := by
    rintro rfl
    exact apart own.symm
  obtain ⟨d, reachable, accepted, received, opens, last, calls, target, harmless⟩ :=
    exists_fed [] sampleFs dmsg listens (m := (s.send m).message) (s.fsize_lt m) fun _ => by decide
  refine ⟨d, fun _ => route n, reachable, ⟨?_, fun _ _ => ⟨n, rfl⟩, ?_⟩, fun parents => ?_⟩
  · intro i j first second _
    omega
  · intro j only
    obtain rfl : j = 0 := by omega
    rw [received, Sent.message_bytes, Sending.stream, carried, List.flatMap_cons]
    exact List.prefix_append _ _
  · have elsewhere : locate sampleFs.cwd (s.send m).message.path ≠
        sampleFs.cwd ++ T.path T.root := by
      rw [show (s.send m).message.path = T.sentPath m from s.sent_path m, Tree.locate_sentPath]
      exact fun same => below (Tree.path_eq_root.1 (List.append_cancel_left same))
    obtain ⟨made, earlier, -, parent, mode, op, -⟩ := parents opens last [] calls _ target elsewhere
    have other := harmless made earlier
    rw [op] at other
    cases other

variable (s route dmsg)

/-- **Parents come first exactly when all messages travel on one connection.** Then, and only
then, no order of arrival makes the daemon act on a child before its parent, and the tree it
leaves is the one that the messages give in the order of sending. (A daemon that listens nowhere
receives nothing.) -/
theorem parents_first_iff :
    InOrder s route dmsg ↔ dmsg.nConns = 0 ∨ ∀ n m, route n = route m := by
  refine ⟨fun ordered => ?_, fun fine => fine.elim inOrder_of_deaf fun single =>
    inOrder_of_single single dmsg⟩
  by_cases deaf : dmsg.nConns = 0
  · exact .inl deaf
  · have same : ∀ n, route n = route T.root := by
      intro n
      by_contra apart
      obtain ⟨d, label, reachable, feeds, broken⟩ := exists_parentless (s := s) deaf apart
      exact broken (ordered [] sampleFs d label reachable feeds).1
    exact .inr fun n m => (same n).trans (same m).symm

end Routes

/-- The connection that carries the file is accepted first, and the file arrives. -/
def orphanInputs : List Input :=
  [.poll [{ input := true }, {}], .round {}, .round {}, .round {},
    .poll [{}, {}, { input := true }], .round {}, .round {},
    .round { reads := [.data (((pairCall true).header (pairTree.sentPath true)).encode ⟨0, 0⟩),
      .data (pairTree.sentPath true), .data [1, 2]] }]

/-- With a connection for each of two nodes, the child can come first, and the daemon exits. -/
theorem child_before_parent :
    ∃ d, run step (start [true, true, true] sampleFs ⟨50000, 2⟩) orphanInputs = some d ∧
      Feeds pairSending id (fun _ => true) d.world ∧ d.status = .fatal ∧
      ¬ ParentsFirst sampleFs.cwd (sampleFs.cwd ++ pairTree.path pairTree.root) d.world.calls := by
  have facts : ∀ d ∈ run step (start [true, true, true] sampleFs ⟨50000, 2⟩) orphanInputs,
      d.world.accepted = 1 ∧ d.world.received 0 = pairSending.stream id true ∧
        d.status = .fatal ∧ (d.world.calls.getLast?.map (·.op.target)) = some (some [114, 47, 97]) ∧
        ∀ call ∈ d.world.calls.dropLast, call.op.target = none := by
    decide +kernel
  obtain ⟨d, reaches⟩ := Option.isSome_iff_exists.1 (show (run step
    (start [true, true, true] sampleFs ⟨50000, 2⟩) orphanInputs).isSome by decide +kernel)
  obtain ⟨accepted, received, fatal, ends, harmless⟩ := facts d reaches
  refine ⟨d, reaches, ⟨?_, fun _ _ => ⟨true, rfl⟩, ?_⟩, fatal, fun parents => ?_⟩
  · intro i j first second _
    omega
  · intro j only
    obtain rfl : j = 0 := by omega
    rw [received]
  · obtain ⟨last, final, target⟩ := Option.map_eq_some_iff.1 ends
    obtain ⟨before, calls⟩ := List.getLast?_eq_some_iff.1 final
    rw [calls, List.dropLast_concat] at harmless
    obtain ⟨made, earlier, -, parent, mode, op, -⟩ :=
      parents before last [] calls _ target (by decide +kernel)
    have other := harmless made earlier
    rw [op] at other
    cases other

end Enuwatch.Daemon

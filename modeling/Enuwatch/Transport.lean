import Enuwatch.Daemon.Waiting
import Enuwatch.Lib.Pool

/-!
# Messages under way

The threads of the client write their messages into sockets of limited size, and the daemon reads
one message at a time: once it has begun with a connection it serves no other before the message
is complete, although the rest of it may not have been written yet, and although another thread may
be blocked on a full socket meanwhile.

`Link` puts the two together. A thread writes as much as its socket takes; `poll` reports some of
the connections on which something is under way; a round of the loop reads what it asks for, in
blocks of any size, until the round is over. The daemon is the one of the model, step for step.

There is no deadlock in this, whatever the size of the sockets and the order of the steps. As long
as no message is begun the steps come to an end, and they only do when every message has been taken
in whole, or when the daemon has ended (`messages_arrive`).
-/

set_option autoImplicit false

namespace Enuwatch.Transport

open Enuwatch.Lib Enuwatch.Net Enuwatch.Daemon

/-- The connections between a client and its daemon. -/
structure Link where
  daemon : Server
  /-- The number of connections. -/
  peers : ℕ
  /-- What is left of the message that is being written on a connection. -/
  writing : ℕ → Bytes := fun _ => []
  /-- What was written and not yet read. -/
  queue : ℕ → Bytes := fun _ => []
  /-- The answers of the file system in the round under way, and the blocks it has read. -/
  round : Option (Answers × List Bytes) := none
  /-- The messages that were begun. -/
  begun : ℕ → List Message := fun _ => []

inductive Input where
  /-- A thread begins with a message. -/
  | start (k : ℕ) (m : Message)
  /-- A `write` takes `n` bytes. -/
  | write (k n : ℕ)
  | poll (revents : List Revents)
  /-- The loop passes an entry that is not readable. -/
  | pass
  /-- The loop comes to an entry that is readable. -/
  | enter (ans : Answers)
  /-- A `read` gets `n` bytes. -/
  | read (n : ℕ)
  /-- The round is over. -/
  | finish

def Input.isStart : Input → Bool
  | .start _ _ => true
  | _ => false

/-- The connection is among the descriptors that the daemon polls. -/
def Listed (d : Server) (k : ℕ) : Prop :=
  ∃ pfd ∈ d.fds, pfd.fd ∉ d.socketFds ∧ d.world.table.get pfd.fd = some (.conn k)

instance (d : Server) (k : ℕ) : Decidable (Listed d k) :=
  inferInstanceAs (Decidable (∃ pfd ∈ d.fds, _))

/-- The connection of an entry. -/
def connOf (d : Server) (pfd : PollFd) : Option ℕ :=
  match d.world.table.get pfd.fd with
  | some (.conn k) => if pfd.fd ∈ d.socketFds then none else some k
  | _ => none

/-- The readable connection that the loop has come to. -/
def turn (d : Server) : Option ℕ :=
  (d.fds[d.idx]?).bind fun pfd =>
    if pfd.revents.hup = false ∧ pfd.revents.err = false ∧ pfd.revents.input = true then
      connOf d pfd
    else none

namespace Link

variable (s : Link)

/-- Something is under way on the connection of the entry. -/
def ready (pfd : PollFd) : Bool := (connOf s.daemon pfd).any fun k => s.queue k ≠ []

/-- What `poll` can report: nobody has hung up, and what is readable has something under way. -/
def Reports (revents : List Revents) : Prop :=
  (∃ r ∈ revents, r.input = true) ∧ ∀ pair ∈ s.daemon.fds.zip revents,
    pair.2.hup = false ∧ pair.2.err = false ∧ (pair.2.input = true → s.ready pair.1 = true)

instance (revents : List Revents) : Decidable (s.Reports revents) :=
  inferInstanceAs (Decidable (_ ∧ _))

end Link

/-- One step, with sockets that hold `cap` bytes. -/
def step (cap : ℕ) (s : Link) : Input → Option Link
  | .start k m =>
      if s.daemon.status = .running ∧ k < s.peers ∧ Listed s.daemon k ∧ s.writing k = [] then
        some { s with
          writing := Function.update s.writing k m.bytes
          begun := Function.update s.begun k (s.begun k ++ [m]) }
      else none
  | .write k n =>
      if 0 < n ∧ n ≤ (s.writing k).length ∧ (s.queue k).length + n ≤ cap then
        some { s with
          writing := Function.update s.writing k ((s.writing k).drop n)
          queue := Function.update s.queue k (s.queue k ++ (s.writing k).take n) }
      else none
  | .poll revents =>
      if s.round.isNone ∧ s.Reports revents then
        (Daemon.step s.daemon (.poll revents)).map fun d => { s with daemon := d }
      else none
  | .pass =>
      if s.round.isNone ∧ (s.daemon.fds[s.daemon.idx]?).any (!·.revents.input) then
        (Daemon.step s.daemon (.round {})).map fun d => { s with daemon := d }
      else none
  | .enter ans =>
      if s.daemon.status = .running ∧ s.round.isNone ∧ (turn s.daemon).isSome then
        some { s with round := some (ans, []) }
      else none
  | .read n =>
      match s.round, turn s.daemon with
      | some (ans, blocks), some k =>
          -- The round still waits, and asks for no more than this.
          if s.daemon.status = .running ∧
              (Daemon.step s.daemon (.round (ans.giving blocks))).isNone ∧ 0 < n ∧
              n ≤ maxRwSize ∧ n ≤ (phaseAfter blocks.flatten).need ∧ n ≤ (s.queue k).length then
            some { s with
              queue := Function.update s.queue k ((s.queue k).drop n)
              round := some (ans, blocks ++ [(s.queue k).take n]) }
          else none
      | _, _ => none
  | .finish =>
      match s.round with
      | some (ans, blocks) =>
          (Daemon.step s.daemon (.round (ans.giving blocks))).map fun d =>
            { s with daemon := d, round := none }
      | none => none

/-! ## The turn of a connection -/

section Turn

variable {d : Server} {pfd : PollFd} {k : ℕ}

theorem connOf_eq_some : connOf d pfd = some k ↔
    pfd.fd ∉ d.socketFds ∧ d.world.table.get pfd.fd = some (.conn k) := by
  unfold connOf
  split
  · rename_i j conn
    split <;> simp_all
  · rename_i other
    simp only [reduceCtorEq, false_iff, not_and]
    exact fun _ => other k

theorem turn_eq_some : turn d = some k ↔
    ∃ pfd, d.fds[d.idx]? = some pfd ∧ pfd.ReadableOn d k := by
  unfold turn
  rw [Option.bind_eq_some_iff]
  refine exists_congr fun pfd => and_congr_right fun here => ?_
  constructor
  · intro flagged
    obtain ⟨⟨hup, err, input⟩, conn⟩ := Option.ite_none_right_eq_some.1 flagged
    obtain ⟨other, conn⟩ := connOf_eq_some.1 conn
    exact ⟨hup, err, input, other, conn⟩
  · rintro ⟨hup, err, input, other, conn⟩
    rw [if_pos ⟨hup, err, input⟩]
    exact connOf_eq_some.2 ⟨other, conn⟩

end Turn

/-! ## What a step can do -/

section Cases

variable {cap : ℕ} {s s' : Link}

/-- What a step can do. -/
inductive StepCase (cap : ℕ) (s : Link) : Input → Link → Prop
  | start {k : ℕ} {m : Message} (running : s.daemon.status = .running) (peer : k < s.peers)
      (listed : Listed s.daemon k) (idle : s.writing k = []) :
      StepCase cap s (.start k m) { s with
        writing := Function.update s.writing k m.bytes
        begun := Function.update s.begun k (s.begun k ++ [m]) }
  | write {k n : ℕ} (some_ : 0 < n) (left : n ≤ (s.writing k).length)
      (room : (s.queue k).length + n ≤ cap) :
      StepCase cap s (.write k n) { s with
        writing := Function.update s.writing k ((s.writing k).drop n)
        queue := Function.update s.queue k (s.queue k ++ (s.writing k).take n) }
  | poll {revents : List Revents} {d : Server} (between : s.round = none)
      (reports : s.Reports revents) (stepped : Daemon.step s.daemon (.poll revents) = some d) :
      StepCase cap s (.poll revents) { s with daemon := d }
  | pass {pfd : PollFd} {d : Server} (between : s.round = none)
      (here : s.daemon.fds[s.daemon.idx]? = some pfd) (quiet : pfd.revents.input = false)
      (stepped : Daemon.step s.daemon (.round {}) = some d) :
      StepCase cap s .pass { s with daemon := d }
  | enter {ans : Answers} {k : ℕ} (running : s.daemon.status = .running) (between : s.round = none)
      (turn : turn s.daemon = some k) :
      StepCase cap s (.enter ans) { s with round := some (ans, []) }
  | read {n k : ℕ} {ans : Answers} {blocks : List Bytes} (running : s.daemon.status = .running)
      (round : s.round = some (ans, blocks)) (turn : turn s.daemon = some k)
      (waits : Daemon.step s.daemon (.round (ans.giving blocks)) = none) (some_ : 0 < n)
      (small : n ≤ maxRwSize) (asked : n ≤ (phaseAfter blocks.flatten).need)
      (there : n ≤ (s.queue k).length) :
      StepCase cap s (.read n) { s with
        queue := Function.update s.queue k ((s.queue k).drop n)
        round := some (ans, blocks ++ [(s.queue k).take n]) }
  | finish {ans : Answers} {blocks : List Bytes} {d : Server} (round : s.round = some (ans, blocks))
      (stepped : Daemon.step s.daemon (.round (ans.giving blocks)) = some d) :
      StepCase cap s .finish { s with daemon := d, round := none }

theorem step_inv {input : Input} (stepped : step cap s input = some s') :
    StepCase cap s input s' := by
  cases input with
  | start k m =>
      obtain ⟨⟨running, peer, listed, idle⟩, same⟩ := Option.ite_none_right_eq_some.1 stepped
      cases same
      exact .start running peer listed idle
  | write k n =>
      obtain ⟨⟨some_, left, room⟩, same⟩ := Option.ite_none_right_eq_some.1 stepped
      cases same
      exact .write some_ left room
  | poll revents =>
      obtain ⟨⟨between, reports⟩, same⟩ := Option.ite_none_right_eq_some.1 stepped
      obtain ⟨d, moved, rfl⟩ := Option.map_eq_some_iff.1 same
      exact .poll (Option.isNone_iff_eq_none.1 between) reports moved
  | pass =>
      obtain ⟨⟨between, here⟩, same⟩ := Option.ite_none_right_eq_some.1 stepped
      obtain ⟨d, moved, rfl⟩ := Option.map_eq_some_iff.1 same
      obtain ⟨pfd, here, quiet⟩ := (Option.any_eq_true _ _).1 here
      exact .pass (Option.isNone_iff_eq_none.1 between) here (by simpa using quiet) moved
  | enter ans =>
      obtain ⟨⟨running, between, turn⟩, same⟩ := Option.ite_none_right_eq_some.1 stepped
      cases same
      obtain ⟨k, turn⟩ := Option.isSome_iff_exists.1 turn
      exact .enter running (Option.isNone_iff_eq_none.1 between) turn
  | read n =>
      simp only [step] at stepped
      split at stepped
      · rename_i ans blocks k round turn
        obtain ⟨⟨running, waits, some_, small, asked, there⟩, same⟩ :=
          Option.ite_none_right_eq_some.1 stepped
        cases same
        exact .read running round turn (Option.isNone_iff_eq_none.1 waits) some_ small asked there
      · cases stepped
  | finish =>
      simp only [step] at stepped
      split at stepped
      · rename_i ans blocks round
        obtain ⟨d, moved, rfl⟩ := Option.map_eq_some_iff.1 stepped
        exact .finish round moved
      · cases stepped

end Cases

/-! ## What holds while the daemon runs -/

namespace Link

variable (s : Link)

/-- The round under way has read something. -/
def reading : Bool := s.round.any fun round => round.2 ≠ []

/-- What the round under way has read of a connection. -/
def taken (k : ℕ) : Bytes :=
  if turn s.daemon = some k then (s.round.map (·.2.flatten)).getD [] else []

end Link

/-- The start: a daemon between two passes, whose connections stand between messages. -/
structure Ready (inherited : List Bool) (fs : Fs) (dmsg : DaemonInitMessage) (d : Server) :
    Prop where
  reachable : Reachable Daemon.step (start inherited fs dmsg) d
  running : d.status = .running
  resting : Resting d
  ended : d.idx = d.fds.length

section Invariant

variable {inherited : List Bool} {fs : Fs} {dmsg : DaemonInitMessage} {d₀ : Server} {cap : ℕ}
  {s s' : Link} {k : ℕ}

/-- What holds while the daemon runs. An entry that is still to be visited is readable only where
something is under way. -/
structure Live (inherited : List Bool) (fs : Fs) (dmsg : DaemonInitMessage) (d₀ : Server)
    (s : Link) : Prop where
  reachable : Reachable Daemon.step (start inherited fs dmsg) s.daemon
  resting : Resting s.daemon
  idx : s.daemon.idx ≤ s.daemon.fds.length
  flags : ∀ i pfd, s.daemon.idx ≤ i → s.daemon.fds[i]? = some pfd →
    pfd.revents.hup = false ∧ pfd.revents.err = false ∧ (pfd.revents.input = true →
      ∃ k, connOf s.daemon pfd = some k ∧ (s.queue k ≠ [] ∨ i = s.daemon.idx ∧ s.reading = true))
  listed : ∀ k, s.writing k ≠ [] ∨ s.queue k ≠ [] → Listed s.daemon k
  serving : ∀ ans blocks, s.round = some (ans, blocks) → ∃ k, turn s.daemon = some k ∧
    (Waiting (Opens ans s.daemon.world.fs) blocks ∨ Ending (Opens ans s.daemon.world.fs) blocks)
  stream : ∀ k, d₀.world.received k ++ (s.begun k).flatMap Message.bytes =
    s.daemon.world.received k ++ s.taken k ++ s.queue k ++ s.writing k

/-- What holds in every state. -/
structure Holds (inherited : List Bool) (fs : Fs) (dmsg : DaemonInitMessage) (d₀ : Server)
    (s : Link) : Prop where
  within : ∀ k, s.writing k ≠ [] ∨ s.queue k ≠ [] → k < s.peers
  live : s.daemon.status = .running → Live inherited fs dmsg d₀ s

theorem Ready.holds (ready : Ready inherited fs dmsg d₀) (peers : ℕ) :
    Holds inherited fs dmsg d₀ { daemon := d₀, peers := peers } where
  within k traffic := by simp at traffic
  live _ :=
    { reachable := ready.reachable
      resting := ready.resting
      idx := ready.ended.le
      flags := by
        intro i pfd late here
        obtain ⟨inside, -⟩ := List.getElem?_eq_some_iff.1 here
        exact absurd (ready.ended.ge.trans late) (not_le.2 inside)
      listed := by simp
      serving := by simp
      stream := by simp [Link.taken] }

theorem Live.turn_of (live : Live inherited fs dmsg d₀ s) (running : s.daemon.status = .running)
    (turned : turn s.daemon = some k) : ∃ pfd, Turn inherited fs dmsg s.daemon pfd k := by
  obtain ⟨pfd, here, readable⟩ := turn_eq_some.1 turned
  exact ⟨pfd, live.reachable, running, live.resting, here, readable⟩

/-- A connection has one entry. -/
theorem Live.distinct (live : Live inherited fs dmsg d₀ s) (running : s.daemon.status = .running)
    {i j : ℕ} {pfd pfd' : PollFd} (at_i : s.daemon.fds[i]? = some pfd)
    (at_j : s.daemon.fds[j]? = some pfd') (conn : connOf s.daemon pfd = some k)
    (conn' : connOf s.daemon pfd' = some k) : i = j := by
  have invariant := reachable_invariant live.reachable
  have coherent := invariant.coherent (by simp [running]) (invariant.running running)
  obtain ⟨other, conn⟩ := connOf_eq_some.1 conn
  obtain ⟨other', conn'⟩ := connOf_eq_some.1 conn'
  have same := coherent.conns _ _ k conn conn'
  have apart := List.pairwise_iff_getElem.1 (List.pairwise_filter.1 coherent.nodup)
  have number : ∀ {i : ℕ} {pfd : PollFd}, s.daemon.fds[i]? = some pfd →
      ∃ inside : i < s.daemon.numbers.length, s.daemon.numbers[i] = pfd.fd := by
    intro i pfd here
    obtain ⟨inside, rfl⟩ := List.getElem?_eq_some_iff.1 here
    exact ⟨by simpa [Server.numbers] using inside, by simp [Server.numbers]⟩
  obtain ⟨inside, at_i⟩ := number at_i
  obtain ⟨inside', at_j⟩ := number at_j
  obtain before | same' | after := Nat.lt_trichotomy i j
  · exact absurd same (by simpa [at_i, at_j, other, other'] using apart i j inside inside' before)
  · exact same'
  · exact absurd same.symm (by simpa [at_i, at_j, other, other'] using apart j i inside' inside after)

theorem taken_of_none (between : s.round = none) (k : ℕ) : s.taken k = [] := by
  simp [Link.taken, between]

theorem taken_of_turn {ans : Answers} {blocks : List Bytes} (round : s.round = some (ans, blocks))
    (turned : turn s.daemon = some k) (j : ℕ) :
    s.taken j = if j = k then blocks.flatten else [] := by
  simp only [Link.taken, turned, round, Option.map_some, Option.getD_some, Option.some.injEq,
    eq_comm]

theorem listed_iff {d : Server} : Listed d k ↔
    ∃ x ∈ d.numbers, x ∉ d.socketFds ∧ d.world.table.get x = some (.conn k) := by
  simp only [Listed, Server.numbers, List.mem_map, exists_exists_and_eq_and]

theorem step_quiet {d : Server} {pfd : PollFd} (running : d.status = .running)
    (here : d.fds[d.idx]? = some pfd) (hup : pfd.revents.hup = false)
    (err : pfd.revents.err = false) (quiet : pfd.revents.input = false) {ans : Answers} :
    Daemon.step d (.round ans) = some { d with idx := d.idx + 1 } := by
  simp [Daemon.step, running, here, Server.visit, hup, err, quiet]

theorem Live.start (live : Live inherited fs dmsg d₀ s) {m : Message} (listed : Listed s.daemon k)
    (idle : s.writing k = []) : Live inherited fs dmsg d₀ { s with
      writing := Function.update s.writing k m.bytes
      begun := Function.update s.begun k (s.begun k ++ [m]) } where
  reachable := live.reachable
  resting := live.resting
  idx := live.idx
  flags := live.flags
  listed j traffic := by
    by_cases own : j = k
    · exact own ▸ listed
    · exact live.listed j (by simpa [own] using traffic)
  serving := live.serving
  stream j := by
    have stream := live.stream j
    by_cases own : j = k
    · subst own
      rw [idle, List.append_nil] at stream
      simp only [Function.update_self, List.flatMap_append, List.flatMap_singleton]
      rw [← List.append_assoc, stream]
      rfl
    · simpa [own, Link.taken] using stream

theorem Live.write (live : Live inherited fs dmsg d₀ s) {n : ℕ} (some_ : 0 < n)
    (left : n ≤ (s.writing k).length) : Live inherited fs dmsg d₀ { s with
      writing := Function.update s.writing k ((s.writing k).drop n)
      queue := Function.update s.queue k (s.queue k ++ (s.writing k).take n) } where
  reachable := live.reachable
  resting := live.resting
  idx := live.idx
  flags i pfd late here := by
    obtain ⟨hup, err, input⟩ := live.flags i pfd late here
    refine ⟨hup, err, fun flagged => ?_⟩
    obtain ⟨j, conn, under | reading⟩ := input flagged
    · refine ⟨j, conn, .inl ?_⟩
      by_cases own : j = k
      · subst own
        simp [under]
      · simpa [own] using under
    · exact ⟨j, conn, .inr reading⟩
  listed j traffic := by
    by_cases own : j = k
    · subst own
      exact live.listed j (.inl (List.ne_nil_of_length_pos (some_.trans_le left)))
    · exact live.listed j (by simpa [own] using traffic)
  serving := live.serving
  stream j := by
    have stream := live.stream j
    by_cases own : j = k
    · subst own
      simpa [Link.taken] using stream
    · simpa [own, Link.taken] using stream

theorem Live.poll (live : Live inherited fs dmsg d₀ s) {revents : List Revents} {d : Server}
    (between : s.round = none) (reports : s.Reports revents)
    (stepped : Daemon.step s.daemon (.poll revents) = some d) :
    Live inherited fs dmsg d₀ { s with daemon := d } := by
  have reachable := live.reachable.tail stepped
  cases (Daemon.step_inv stepped).2 with
  | polled length allowed =>
      refine ⟨reachable, live.resting.of_states live.resting.states rfl, Nat.zero_le _, ?_, ?_, ?_,
        fun j => ?_⟩
      · intro i pfd' _ here
        obtain ⟨pfd, r, was, is_, rfl⟩ := List.getElem?_zipWith_eq_some.1 here
        have among : (pfd, r) ∈ s.daemon.fds.zip revents := by
          refine List.mem_of_getElem? (i := i) ?_
          rw [List.getElem?_zip_eq_some]
          exact ⟨was, is_⟩
        obtain ⟨hup, err, input⟩ := reports.2 _ among
        refine ⟨hup, err, fun flagged => ?_⟩
        obtain ⟨k, conn, under⟩ := (Option.any_eq_true _ _).1 (input flagged)
        exact ⟨k, conn, .inl (by simpa using under)⟩
      · intro j traffic
        rw [listed_iff]
        have before := listed_iff.1 (live.listed j traffic)
        simpa only [Server.numbers, numbers_polled length] using before
      · simp [between]
      · simpa [Link.taken, between] using live.stream j

theorem Live.pass (live : Live inherited fs dmsg d₀ s) {pfd : PollFd} {d : Server}
    (between : s.round = none) (here : s.daemon.fds[s.daemon.idx]? = some pfd)
    (quiet : pfd.revents.input = false) (stepped : Daemon.step s.daemon (.round {}) = some d) :
    d = { s.daemon with idx := s.daemon.idx + 1 } ∧
      Live inherited fs dmsg d₀ { s with daemon := d } := by
  have reachable := live.reachable.tail stepped
  obtain ⟨hup, err, -⟩ := live.flags _ pfd le_rfl here
  obtain rfl : d = { s.daemon with idx := s.daemon.idx + 1 } := by
    rw [step_quiet (running_of_step stepped) here hup err quiet] at stepped
    exact (Option.some.inj stepped).symm
  obtain ⟨inside, -⟩ := List.getElem?_eq_some_iff.1 here
  refine ⟨rfl, reachable, live.resting.of_states live.resting.states rfl, inside, ?_, live.listed,
    by simp [between], fun j => ?_⟩
  · intro i pfd' late there
    obtain ⟨hup, err, input⟩ := live.flags i pfd' (Nat.le_of_succ_le late) there
    refine ⟨hup, err, fun flagged => ?_⟩
    obtain ⟨j, conn, under | ⟨rfl, -⟩⟩ := input flagged
    · exact ⟨j, conn, .inl under⟩
    · exact absurd late (Nat.not_succ_le_self _)
  · simpa [Link.taken, between] using live.stream j

theorem Live.enter (live : Live inherited fs dmsg d₀ s) (between : s.round = none)
    (turned : turn s.daemon = some k) (ans : Answers) :
    Live inherited fs dmsg d₀ { s with round := some (ans, []) } where
  reachable := live.reachable
  resting := live.resting
  idx := live.idx
  flags i pfd late here := by
    obtain ⟨hup, err, input⟩ := live.flags i pfd late here
    refine ⟨hup, err, fun flagged => ?_⟩
    obtain ⟨j, conn, under | ⟨-, reading⟩⟩ := input flagged
    · exact ⟨j, conn, .inl under⟩
    · simp [Link.reading, between] at reading
  listed := live.listed
  serving ans' blocks round := by
    cases round
    exact ⟨k, turned, .inl (.header cuts_nil (by decide))⟩
  stream j := by
    have stream := live.stream j
    rw [taken_of_none between] at stream
    simpa [Link.taken] using stream

theorem Live.read (live : Live inherited fs dmsg d₀ s) (running : s.daemon.status = .running)
    {n : ℕ} {ans : Answers} {blocks : List Bytes} (round : s.round = some (ans, blocks))
    (turned : turn s.daemon = some k)
    (waits : Daemon.step s.daemon (.round (ans.giving blocks)) = none) (some_ : 0 < n)
    (small : n ≤ maxRwSize) (asked : n ≤ (phaseAfter blocks.flatten).need)
    (there : n ≤ (s.queue k).length) : Live inherited fs dmsg d₀ { s with
      queue := Function.update s.queue k ((s.queue k).drop n)
      round := some (ans, blocks ++ [(s.queue k).take n]) } where
  reachable := live.reachable
  resting := live.resting
  idx := live.idx
  flags i pfd late here := by
    obtain ⟨hup, err, input⟩ := live.flags i pfd late here
    refine ⟨hup, err, fun flagged => ?_⟩
    obtain ⟨j, conn, under⟩ := input flagged
    by_cases current : i = s.daemon.idx
    · exact ⟨j, conn, .inr ⟨current, by simp [Link.reading]⟩⟩
    · have under := under.resolve_right fun reading => current reading.1
      obtain ⟨pfd', here', readable⟩ := turn_eq_some.1 turned
      have other : j ≠ k := by
        rintro rfl
        exact current (live.distinct running here here' conn
          (connOf_eq_some.2 ⟨readable.other, readable.conn⟩))
      exact ⟨j, conn, .inl (by simpa [other] using under)⟩
  listed j traffic := by
    by_cases own : j = k
    · subst own
      exact live.listed j (.inr (List.ne_nil_of_length_pos (some_.trans_le there)))
    · exact live.listed j (by simpa [own] using traffic)
  serving ans' blocks' round' := by
    cases round'
    obtain ⟨pfd, turn⟩ := live.turn_of running turned
    obtain ⟨j, same, waiting | ending⟩ := live.serving ans blocks round
    · have cut : Cuts [(s.queue k).take n] := by
        simp only [Cuts, List.forall_mem_singleton, List.length_take, Nat.min_eq_left there]
        exact ⟨List.ne_nil_of_length_pos (by simpa [there] using some_), small⟩
      exact ⟨k, turned, waiting.read cut (by simpa [Nat.min_eq_left there] using asked)⟩
    · obtain ⟨d, over_⟩ := turn.ends ending
      simp [over_] at waits
  stream j := by
    have stream := live.stream j
    rw [taken_of_turn round turned] at stream
    rw [taken_of_turn (s := { s with
      queue := Function.update s.queue k ((s.queue k).drop n)
      round := some (ans, blocks ++ [(s.queue k).take n]) }) rfl turned]
    by_cases own : j = k
    · subst own
      simpa using stream
    · simpa [own] using stream

theorem Live.finish (live : Live inherited fs dmsg d₀ s) (running : s.daemon.status = .running)
    {ans : Answers} {blocks : List Bytes} {d : Server} (round : s.round = some (ans, blocks))
    (stepped : Daemon.step s.daemon (.round (ans.giving blocks)) = some d)
    (going : d.status = .running) :
    d.fds = s.daemon.fds ∧ d.idx = s.daemon.idx + 1 ∧
      Live inherited fs dmsg d₀ { s with daemon := d, round := none } := by
  obtain ⟨k, turned, -⟩ := live.serving ans blocks round
  obtain ⟨pfd, turn⟩ := live.turn_of running turned
  obtain ⟨resting, fds, idx, socketFds, conns, received, others⟩ := turn.served stepped going
  have conn_eq : ∀ {pfd' : PollFd} {j : ℕ}, connOf s.daemon pfd' = some j →
      connOf d pfd' = some j := by
    intro pfd' j conn
    obtain ⟨other, conn⟩ := connOf_eq_some.1 conn
    exact connOf_eq_some.2 ⟨by rwa [socketFds], (conns _ other j).2 conn⟩
  obtain ⟨inside, -⟩ := List.getElem?_eq_some_iff.1 turn.here
  refine ⟨fds, idx, live.reachable.tail stepped, resting, by rw [idx, fds]; exact inside, ?_, ?_,
    by simp, fun j => ?_⟩
  · intro i pfd' late here
    rw [idx] at late
    rw [fds] at here
    obtain ⟨hup, err, input⟩ := live.flags i pfd' (Nat.le_of_succ_le late) here
    refine ⟨hup, err, fun flagged => ?_⟩
    obtain ⟨j, conn, under | ⟨rfl, -⟩⟩ := input flagged
    · exact ⟨j, conn_eq conn, .inl under⟩
    · exact absurd late (Nat.not_succ_le_self _)
  · intro j traffic
    obtain ⟨pfd', among, other, conn⟩ := live.listed j traffic
    exact ⟨pfd', by rwa [fds], by rwa [socketFds], (conns _ other j).2 conn⟩
  · have stream := live.stream j
    rw [taken_of_turn round turned] at stream
    rw [taken_of_none rfl]
    by_cases own : j = k
    · subst own
      simpa [received] using stream
    · simpa [others j own, own] using stream

/-- **Every step keeps it.** -/
theorem Holds.after_step (holds : Holds inherited fs dmsg d₀ s) {input : Input}
    (stepped : step cap s input = some s') : Holds inherited fs dmsg d₀ s' := by
  obtain ⟨within, live⟩ := holds
  cases step_inv stepped with
  | @start k m running peer listed idle =>
      refine ⟨fun j traffic => ?_, fun running => (live running).start listed idle⟩
      by_cases own : j = k
      · exact own ▸ peer
      · exact within j (by simpa [own] using traffic)
  | @write k n some_ left room =>
      refine ⟨fun j traffic => ?_, fun running => (live running).write some_ left⟩
      by_cases own : j = k
      · subst own
        exact within j (.inl (List.ne_nil_of_length_pos (some_.trans_le left)))
      · exact within j (by simpa [own] using traffic)
  | poll between reports moved =>
      exact ⟨within, fun _ => (live (running_of_step moved)).poll between reports moved⟩
  | pass between here quiet moved =>
      exact ⟨within, fun _ => ((live (running_of_step moved)).pass between here quiet moved).2⟩
  | enter running between turned =>
      exact ⟨within, fun _ => (live running).enter between turned _⟩
  | @read n k ans blocks running round turned waits some_ small asked there =>
      refine ⟨fun j traffic => ?_, fun _ => (live running).read running round turned waits some_
        small asked there⟩
      by_cases own : j = k
      · subst own
        exact within j (.inr (List.ne_nil_of_length_pos (some_.trans_le there)))
      · exact within j (by simpa [own] using traffic)
  | finish round moved =>
      have running := running_of_step moved
      exact ⟨within, fun going => ((live running).finish running round moved going).2.2⟩

end Invariant

/-! ## The steps come to an end -/

/-- The bytes that wait on the first `n` connections. -/
def backlog (waiting : ℕ → Bytes) (n : ℕ) : ℕ := total (fun k => (waiting k).length) (List.range n)

theorem backlog_update (waiting : ℕ → Bytes) {n k : ℕ} (inside : k < n) (bytes : Bytes) :
    backlog (Function.update waiting k bytes) n + (waiting k).length =
      backlog waiting n + bytes.length := by
  have lengths : (fun j => (Function.update waiting k bytes j).length) =
      Function.update (fun j => (waiting j).length) k bytes.length := by
    funext j
    exact Function.apply_update (fun _ => List.length) waiting k bytes j
  rw [backlog, lengths]
  exact total_update _ List.nodup_range (List.mem_range.2 inside) _

namespace Link

variable (s : Link)

/-- The first entry of which the pass has read nothing. -/
def next : ℕ := s.daemon.idx + if s.reading then 1 else 0

/-- The pass will come to an entry that is readable. -/
def owed : Bool := (s.daemon.fds.drop s.next).any (·.revents.input)

/-- A bound for the steps that the loop makes before it reads again. -/
def rest : ℕ :=
  2 * (s.daemon.fds.length - s.daemon.idx) + (if s.owed then 0 else 2 * s.daemon.fds.length + 1) +
    (if s.round.isNone then 1 else 0) + 1

/-- A bound for the steps that are left. -/
def potential : ℕ :=
  backlog s.writing s.peers + if s.daemon.status = .running then
    (2 * s.daemon.fds.length + 2) * (backlog s.writing s.peers + backlog s.queue s.peers) + s.rest
  else 0

end Link

/-- A step that begins no message. -/
def drain (cap : ℕ) (s : Link) (input : Input) : Option Link :=
  if input.isStart then none else step cap s input

section Ending

variable {inherited : List Bool} {fs : Fs} {dmsg : DaemonInitMessage} {d₀ : Server} {cap : ℕ}
  {s s' : Link}

theorem drain_inv {input : Input} (stepped : drain cap s input = some s') :
    input.isStart = false ∧ step cap s input = some s' := by
  obtain ⟨other, stepped⟩ := Option.ite_none_left_eq_some.1 stepped
  exact ⟨by simpa using other, stepped⟩

theorem any_drop_of_quiet {fds : List PollFd} {i : ℕ} {pfd : PollFd} (here : fds[i]? = some pfd)
    (quiet : pfd.revents.input = false) :
    (fds.drop i).any (·.revents.input) = (fds.drop (i + 1)).any (·.revents.input) := by
  obtain ⟨inside, rfl⟩ := List.getElem?_eq_some_iff.1 here
  rw [List.drop_eq_getElem_cons inside, List.any_cons, quiet, Bool.false_or]

/-- A round that is over has read something. -/
theorem Live.reading_of_finish (live : Live inherited fs dmsg d₀ s)
    (running : s.daemon.status = .running) {ans : Answers} {blocks : List Bytes} {d : Server}
    (round : s.round = some (ans, blocks))
    (stepped : Daemon.step s.daemon (.round (ans.giving blocks)) = some d) : s.reading = true := by
  have read : blocks ≠ [] := by
    rintro rfl
    obtain ⟨k, turned, -⟩ := live.serving ans [] round
    obtain ⟨pfd, turn⟩ := live.turn_of running turned
    rw [turn.blocked (.header cuts_nil (by decide))] at stepped
    cases stepped
  simp [Link.reading, round, read]

theorem pays_of_rest (running : s.daemon.status = .running) (writing : s'.writing = s.writing)
    (queue : s'.queue = s.queue) (peers : s'.peers = s.peers)
    (lower : s'.daemon.status = .running →
      s'.daemon.fds.length = s.daemon.fds.length ∧ s'.rest + 1 ≤ s.rest) :
    s'.potential + 1 ≤ s.potential := by
  rw [Link.potential, Link.potential, if_pos running, writing, queue, peers]
  split
  · rename_i going
    obtain ⟨entries, lower⟩ := lower going
    rw [entries]
    omega
  · have some_ : 1 ≤ s.rest := Nat.le_add_left _ _
    omega

/-- `poll` begins a pass that is going to read. -/
theorem Live.rest_poll (live : Live inherited fs dmsg d₀ s) {revents : List Revents} {d : Server}
    (between : s.round = none) (reports : s.Reports revents)
    (stepped : Daemon.step s.daemon (.poll revents) = some d) :
    d.fds.length = s.daemon.fds.length ∧ Link.rest { s with daemon := d } + 1 ≤ s.rest := by
  have ended : s.daemon.idx = s.daemon.fds.length := by
    refine le_antisymm live.idx (not_lt.1 fun inside => ?_)
    simp [Daemon.step, running_of_step stepped, List.getElem?_eq_getElem inside] at stepped
  cases (Daemon.step_inv stepped).2 with
  | polled length allowed =>
      have entries : (s.daemon.fds.zipWith (fun pfd r => { pfd with revents := r }) revents).length =
          s.daemon.fds.length := by
        rw [List.length_zipWith, length, Nat.min_self]
      obtain ⟨r, among, input⟩ := reports.1
      obtain ⟨i, inside, rfl⟩ := List.getElem_of_mem among
      have flagged : ∃ pfd ∈ s.daemon.fds.zipWith (fun pfd r => { pfd with revents := r }) revents,
          pfd.revents.input = true :=
        ⟨_, List.getElem_mem (by rwa [entries, ← length]), by simpa using input⟩
      refine ⟨entries, ?_⟩
      simp only [Link.rest, Link.owed, Link.next, Link.reading, between, entries, ended,
        Option.any_none, Bool.false_eq_true, if_false, Nat.add_zero, List.drop_zero,
        List.drop_length, List.any_nil, Option.isNone_none, if_true, List.any_eq_true.2 flagged]
      omega

/-- A read may have been the last that was owed. -/
theorem rest_read {ans : Answers} {blocks : List Bytes} (round : s.round = some (ans, blocks))
    (queue : ℕ → Bytes) (block : Bytes) :
    Link.rest { s with queue := queue, round := some (ans, blocks ++ [block]) } ≤
      s.rest + (2 * s.daemon.fds.length + 1) := by
  simp only [Link.rest, round, Option.isNone_some, Bool.false_eq_true, if_false]
  split <;> split <;> omega

/-- **Every step that begins no message lowers the potential.** -/
theorem Holds.pays (holds : Holds inherited fs dmsg d₀ s) {input : Input}
    (stepped : drain cap s input = some s') : s'.potential + 1 ≤ s.potential := by
  obtain ⟨other, stepped⟩ := drain_inv stepped
  obtain ⟨within, live⟩ := holds
  cases step_inv stepped with
  | start => cases other
  | @write k n some_ left room =>
      have peer := within k (.inl (List.ne_nil_of_length_pos (some_.trans_le left)))
      have written := backlog_update s.writing peer ((s.writing k).drop n)
      have queued := backlog_update s.queue peer (s.queue k ++ (s.writing k).take n)
      rw [List.length_drop] at written
      rw [List.length_append, List.length_take, Nat.min_eq_left left] at queued
      have kept : backlog (Function.update s.writing k ((s.writing k).drop n)) s.peers +
          backlog (Function.update s.queue k (s.queue k ++ (s.writing k).take n)) s.peers =
          backlog s.writing s.peers + backlog s.queue s.peers := by
        omega
      rw [Link.potential, Link.potential]
      simp only [kept]
      change _ + (if _ then _ + s.rest else 0) + 1 ≤ _
      omega
  | poll between reports moved =>
      have running := running_of_step moved
      exact pays_of_rest running rfl rfl rfl fun _ => (live running).rest_poll between reports moved
  | pass between here quiet moved =>
      have running := running_of_step moved
      obtain ⟨rfl, -⟩ := (live running).pass between here quiet moved
      obtain ⟨inside, -⟩ := List.getElem?_eq_some_iff.1 here
      refine pays_of_rest running rfl rfl rfl fun _ => ⟨rfl, ?_⟩
      simp only [Link.rest, Link.owed, Link.next, Link.reading, between, Option.any_none,
        Bool.false_eq_true, if_false, Nat.add_zero, any_drop_of_quiet here quiet]
      omega
  | enter running between turned =>
      refine pays_of_rest running rfl rfl rfl fun _ => ⟨rfl, ?_⟩
      simp only [Link.rest, Link.owed, Link.next, Link.reading, between, Option.any_none,
        Option.any_some, Option.isNone_none, Option.isNone_some, ne_eq, not_true_eq_false,
        decide_false, Bool.false_eq_true, if_false, if_true]
      omega
  | @read n k ans blocks running round turned waits some_ small asked there =>
      have peer := within k (.inr (List.ne_nil_of_length_pos (some_.trans_le there)))
      have queued := backlog_update s.queue peer ((s.queue k).drop n)
      rw [List.length_drop] at queued
      have rest := rest_read round (Function.update s.queue k ((s.queue k).drop n))
        ((s.queue k).take n)
      -- One byte less pays for a whole pass.
      have scaled : (2 * s.daemon.fds.length + 2) * (backlog s.writing s.peers +
            backlog (Function.update s.queue k ((s.queue k).drop n)) s.peers + 1) ≤
          (2 * s.daemon.fds.length + 2) * (backlog s.writing s.peers + backlog s.queue s.peers) :=
        Nat.mul_le_mul_left _ (by omega)
      rw [Nat.mul_succ] at scaled
      rw [Link.potential, Link.potential, if_pos running, if_pos running]
      simp only
      omega
  | finish round moved =>
      have running := running_of_step moved
      refine pays_of_rest running rfl rfl rfl fun going => ?_
      obtain ⟨fds, idx, -⟩ := (live running).finish running round moved going
      refine ⟨congrArg List.length fds, ?_⟩
      have reading := (live running).reading_of_finish running round moved
      obtain ⟨k, turned, -⟩ := (live running).serving _ _ round
      obtain ⟨pfd, here, -⟩ := turn_eq_some.1 turned
      obtain ⟨inside, -⟩ := List.getElem?_eq_some_iff.1 here
      simp only [Link.rest, Link.owed, Link.next, fds, idx, reading, round, Option.isNone_some]
      simp only [Link.reading, Option.any_none, Option.isNone_none, Bool.false_eq_true, if_false,
        if_true, Nat.add_zero]
      omega

/-! ## A state without a step -/

theorem not_stuck (input : Input) (other : input.isStart = false) (moves : (step cap s input).isSome)
    (stuck : ∀ input, drain cap s input = none) : False := by
  have none_ := stuck input
  rw [drain, if_neg (by simp [other])] at none_
  simp [none_] at moves

/-- A thread with something to write can write where the socket is empty. -/
theorem writing_of_stuck (room : 0 < cap) (stuck : ∀ input, drain cap s input = none) {k : ℕ}
    (empty : s.queue k = []) : s.writing k = [] := by
  by_contra left
  refine not_stuck (.write k 1) rfl ?_ stuck
  have some_ := List.length_pos_of_ne_nil left
  rw [step, if_pos ⟨Nat.one_pos, some_, by rw [empty, List.length_nil, Nat.zero_add]; exact room⟩]
  rfl

/-- A round under way can go on: what it waits for is in the socket or yet to be written. -/
theorem Live.round_of_stuck (room : 0 < cap) (live : Live inherited fs dmsg d₀ s)
    (running : s.daemon.status = .running) (idle : Idle d₀.world)
    (stuck : ∀ input, drain cap s input = none) : s.round = none := by
  by_contra under
  obtain ⟨⟨ans, blocks⟩, round⟩ := Option.ne_none_iff_exists'.1 under
  obtain ⟨k, turned, waiting | ending⟩ := live.serving ans blocks round
  · obtain ⟨pfd, turn⟩ := live.turn_of running turned
    have empty : s.queue k = [] := by
      by_contra there
      refine not_stuck (.read 1) rfl ?_ stuck
      have some_ := List.length_pos_of_ne_nil there
      simp only [step, round, turned]
      rw [if_pos ⟨running, by rw [turn.blocked waiting]; rfl, Nat.one_pos, by decide,
        waiting.need_pos, some_⟩]
      rfl
    have written := writing_of_stuck room stuck empty
    have begun : blocks ≠ [] := by
      rintro rfl
      obtain ⟨-, -, input⟩ := live.flags _ pfd le_rfl turn.here
      obtain ⟨j, conn, there | ⟨-, reading⟩⟩ := input turn.readable.input
      · obtain rfl : j = k := Option.some.inj (conn.symm.trans
          (connOf_eq_some.2 ⟨turn.readable.other, turn.readable.conn⟩))
        exact there empty
      · simp [Link.reading, round] at reading
    -- All of the stream has been read, and it ends with a whole message.
    refine waiting.incomplete begun ?_
    have stream := live.stream k
    rw [taken_of_turn round turned, if_pos rfl, empty, written, List.append_nil,
      List.append_nil] at stream
    have whole := congrArg phaseAfter stream
    rw [phaseAfter_append, phaseAfter_append, idle k, live.resting.streams k] at whole
    exact whole.symm.trans (phaseAfter_messages _)
  · obtain ⟨pfd, turn⟩ := live.turn_of running turned
    obtain ⟨d, over_⟩ := turn.ends ending
    exact not_stuck .finish rfl (by simp [step, round, over_]) stuck

/-- The pass is over. -/
theorem Live.idx_of_stuck (live : Live inherited fs dmsg d₀ s)
    (running : s.daemon.status = .running) (between : s.round = none)
    (stuck : ∀ input, drain cap s input = none) : s.daemon.fds[s.daemon.idx]? = none := by
  by_contra inside
  obtain ⟨pfd, here⟩ := Option.ne_none_iff_exists'.1 inside
  obtain ⟨hup, err, flagged⟩ := live.flags _ pfd le_rfl here
  cases input : pfd.revents.input with
  | false =>
      refine not_stuck .pass rfl ?_ stuck
      simp [step, between, here, input, step_quiet running here hup err input]
  | true =>
      obtain ⟨k, conn, -⟩ := flagged input
      have turned : turn s.daemon = some k := by
        obtain ⟨other, conn⟩ := connOf_eq_some.1 conn
        exact turn_eq_some.2 ⟨pfd, here, hup, err, input, other, conn⟩
      exact not_stuck (.enter {}) rfl (by simp [step, running, between, turned]) stuck

/-- The answer of `poll` that reports everything that is under way. -/
def Link.pending (s : Link) : List Revents :=
  s.daemon.fds.map fun pfd => { input := s.ready pfd }

/-- Nothing is left in a socket: `poll` would report it. -/
theorem Live.queue_of_stuck (live : Live inherited fs dmsg d₀ s)
    (running : s.daemon.status = .running) (between : s.round = none)
    (stuck : ∀ input, drain cap s input = none) (k : ℕ) : s.queue k = [] := by
  by_contra there
  obtain ⟨pfd, among, other, conn⟩ := live.listed k (.inr there)
  have ended := live.idx_of_stuck running between stuck
  have ready : s.ready pfd = true := by
    simp [Link.ready, connOf_eq_some.2 ⟨other, conn⟩, there]
  refine not_stuck (.poll s.pending) rfl ?_ stuck
  have reported : ∀ pair ∈ s.daemon.fds.zip s.pending, pair.2 = { input := s.ready pair.1 } := by
    rw [Link.pending, ← List.map_prod_left_eq_zip]
    simp
  have reports : s.Reports s.pending := by
    refine ⟨⟨_, List.mem_map.2 ⟨pfd, among, rfl⟩, ready⟩, fun pair zipped => ?_⟩
    rw [reported pair zipped]
    exact ⟨rfl, rfl, id⟩
  have allowed : ∀ pair ∈ s.daemon.fds.zip s.pending,
      Server.pollAnswer s.daemon.world.table pair.1 pair.2 := by
    intro pair zipped closed
    rw [reported pair zipped]
    simp [Link.ready, connOf, closed]
  simp only [step]
  rw [if_pos ⟨by rw [between]; rfl, reports⟩,
    step_poll running ended (by rw [Link.pending, List.length_map]) allowed]
  rfl

/-- All that was begun has been taken in. -/
theorem Live.received_of_stuck (live : Live inherited fs dmsg d₀ s) (room : 0 < cap)
    (running : s.daemon.status = .running) (idle : Idle d₀.world)
    (stuck : ∀ input, drain cap s input = none) (k : ℕ) :
    s.daemon.world.received k = d₀.world.received k ++ (s.begun k).flatMap Message.bytes := by
  have between := live.round_of_stuck room running idle stuck
  have empty := live.queue_of_stuck running between stuck k
  have stream := live.stream k
  rw [taken_of_none between, empty, writing_of_stuck room stuck empty] at stream
  simpa using stream.symm

/-- **Every message arrives.** Whatever the threads have begun to write and in whatever order the
steps are made: as long as no further message is begun the steps come to an end, and where they do,
with the daemon still running, each connection has taken in all its messages. -/
theorem messages_arrive (room : 0 < cap) (ready : Ready inherited fs dmsg d₀) {peers : ℕ}
    (reachable : Reachable (step cap) { daemon := d₀, peers := peers } s) :
    (∀ inputs s', run (drain cap) s inputs = some s' → inputs.length ≤ s.potential) ∧
      (s.daemon.status = .running → (∀ input, drain cap s input = none) →
        ∀ k, s.daemon.world.received k =
          d₀.world.received k ++ (s.begun k).flatMap Message.bytes) := by
  have holds : Holds inherited fs dmsg d₀ s :=
    reachable.invariant (ready.holds peers) fun _ _ _ holds stepped => holds.after_step stepped
  constructor
  · intro inputs s' reaches
    have pays : ∀ (s : Link) (input : Input) (s' : Link), Holds inherited fs dmsg d₀ s →
        drain cap s input = some s' →
          s'.potential + 1 ≤ s.potential + if input.isStart then 0 else 0 :=
      fun _ _ _ holds stepped => by simpa using holds.pays stepped
    have bound := run_length_le
      (fun _ _ _ holds stepped => holds.after_step (drain_inv stepped).2) pays holds reaches
    omega
  · intro running stuck
    exact (holds.live running).received_of_stuck room running ready.resting.streams stuck

end Ending

/-- The daemon after it has accepted both connections, with sockets of nine bytes: the message of
the file has been begun on the second one, and the daemon has read the first bytes of it. -/
def sampleInputs : List Input :=
  [.start 1 (pairSending.send true).message, .start 0 (pairSending.send false).message,
    .write 1 9, .poll [{}, {}, {}, { input := true }], .pass, .pass, .pass, .enter {}, .read 4,
    .write 0 9]

theorem messages_arrive_sample : ∃ d s,
    run Daemon.step pairStart (spreadInputs.take 5) = some d ∧
      run (step 9) { daemon := d, peers := 2 } sampleInputs = some s ∧
      (∀ inputs s', run (drain 9) s inputs = some s' → inputs.length ≤ s.potential) ∧
      (s.daemon.status = .running → (∀ input, drain 9 s input = none) →
        s.daemon.world.received 1 = (pairSending.send true).message.bytes) := by
  obtain ⟨d, accepts⟩ := Option.isSome_iff_exists.1
    (show (run Daemon.step pairStart (spreadInputs.take 5)).isSome by decide +kernel)
  have facts : ∀ d ∈ run Daemon.step pairStart (spreadInputs.take 5), d.status = .running ∧
      d.idx = d.fds.length ∧ d.world.received 1 = [] ∧
      ∀ s ∈ run (step 9) { daemon := d, peers := 2 } sampleInputs,
        (s.begun 1).flatMap Message.bytes = (pairSending.send true).message.bytes := by
    decide +kernel
  have moves : ∀ d ∈ run Daemon.step pairStart (spreadInputs.take 5),
      (run (step 9) { daemon := d, peers := 2 } sampleInputs).isSome := by
    decide +kernel
  obtain ⟨running, ended, fresh, begun⟩ := facts d accepts
  obtain ⟨s, reaches⟩ := Option.isSome_iff_exists.1 (moves d accepts)
  obtain ⟨resting, -⟩ :=
    start_resting.after_run (k := 0) (.refl _) (by decide +kernel) accepts running
  obtain ⟨bounded, arrived⟩ :=
    messages_arrive (by decide) ⟨⟨_, accepts⟩, running, resting, ended⟩ ⟨_, reaches⟩
  refine ⟨d, s, accepts, reaches, bounded, fun going stuck => ?_⟩
  rw [arrived going stuck 1, fresh, begun s reaches, List.nil_append]

end Enuwatch.Transport

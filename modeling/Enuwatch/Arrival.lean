import Enuwatch.Transport

/-!
# A tree under way

The threads of a client send the messages of a tree through sockets of limited size, each of them
its share, while the daemon takes them in one by one. When no thread and no round of the daemon can
go on any more, every message has arrived, so that the tree is there (`tree_arrives`).

That is so as soon as everything was written and read (`Holds.stuck_of_quiet`).
-/

set_option autoImplicit false

namespace Enuwatch.Transport

open Enuwatch.Lib Enuwatch.Daemon

/-! ## Nothing under way -/

/-- Everything was written and read, and the daemon is about to call `poll`. -/
structure Quiet (s : Link) : Prop where
  round : s.round = none
  ended : s.daemon.fds[s.daemon.idx]? = none
  writing : ∀ k < s.peers, s.writing k = []
  queue : ∀ k < s.peers, s.queue k = []

section Quiet

variable {inherited : List Bool} {fs : Fs} {dmsg : DaemonInitMessage} {d₀ : Server} {cap : ℕ}
  {s s' : Link}

theorem Holds.writing_of_quiet (holds : Holds inherited fs dmsg d₀ s) (quiet : Quiet s) (k : ℕ) :
    s.writing k = [] := by
  by_contra left
  exact left (quiet.writing k (holds.within k (.inl left)))

theorem Holds.queue_of_quiet (holds : Holds inherited fs dmsg d₀ s) (quiet : Quiet s) (k : ℕ) :
    s.queue k = [] := by
  by_contra left
  exact left (quiet.queue k (holds.within k (.inr left)))

/-- `poll` has nothing to report. -/
theorem Holds.not_reports (holds : Holds inherited fs dmsg d₀ s) (quiet : Quiet s)
    {revents : List Revents} (length : revents.length = s.daemon.fds.length) :
    ¬ s.Reports revents := by
  rintro ⟨⟨r, among, input⟩, flags⟩
  obtain ⟨i, inside, rfl⟩ := List.getElem_of_mem among
  have zipped : (s.daemon.fds[i], revents[i]) ∈ s.daemon.fds.zip revents :=
    List.mem_iff_getElem.2 ⟨i, by rw [List.length_zip]; omega, by rw [List.getElem_zip]⟩
  obtain ⟨-, -, ready⟩ := flags _ zipped
  obtain ⟨k, -, there⟩ := (Option.any_eq_true _ _).1 (ready input)
  simp [holds.queue_of_quiet quiet k] at there

/-- Where nothing is under way, nothing can go on. -/
theorem Holds.stuck_of_quiet (holds : Holds inherited fs dmsg d₀ s) (quiet : Quiet s)
    (input : Input) : drain cap s input = none := by
  refine Option.eq_none_iff_forall_ne_some.2 fun s' drained => ?_
  obtain ⟨other, stepped⟩ := drain_inv drained
  cases step_inv stepped with
  | start => cases other
  | @write k n some_ left room =>
      rw [holds.writing_of_quiet quiet k, List.length_nil] at left
      omega
  | poll between reports polled =>
      obtain ⟨-, ⟨length, -⟩⟩ := Daemon.step_inv polled
      exact holds.not_reports quiet length reports
  | pass between here =>
      rw [quiet.ended] at here
      cases here
  | enter running between turned =>
      obtain ⟨pfd, here, -⟩ := turn_eq_some.1 turned
      rw [quiet.ended] at here
      cases here
  | read running round =>
      rw [quiet.round] at round
      cases round
  | finish round =>
      rw [quiet.round] at round
      cases round

/-- Messages are begun on the connections of the client only. -/
theorem reachable_begun {peers : ℕ}
    (reachable : Reachable (step cap) { daemon := d₀, peers := peers } s) :
    s.peers = peers ∧ ∀ k, peers ≤ k → s.begun k = [] := by
  refine reachable.invariant (P := fun s => s.peers = peers ∧ ∀ k, peers ≤ k → s.begun k = [])
    ⟨rfl, fun _ _ => rfl⟩ ?_
  rintro u input u' ⟨same, none_⟩ stepped
  cases step_inv stepped with
  | @start k m running peer =>
      refine ⟨same, fun j beyond => ?_⟩
      show Function.update u.begun k _ j = []
      rw [Function.update_of_ne (by omega)]
      exact none_ j beyond
  | write => exact ⟨same, none_⟩
  | poll => exact ⟨same, none_⟩
  | pass => exact ⟨same, none_⟩
  | enter => exact ⟨same, none_⟩
  | read => exact ⟨same, none_⟩
  | finish => exact ⟨same, none_⟩

end Quiet

/-! ## The messages of a tree -/

section Trees

variable {N : Type} {T : Tree N} {inherited : List Bool} {fs : Fs} {dmsg : DaemonInitMessage}
  {d₀ : Server} {cap : ℕ}

/-- **A tree that is on its way gets there.** The messages of a tree were begun, each on some
connection, children after their parents where they share one. Once nothing can go on any more, with
the daemon still running, every node is at its path with what was sent, and everything else is as it
was. -/
theorem tree_arrives (room : 0 < cap) (ready : Ready inherited fs dmsg d₀)
    (fresh : ∀ k, d₀.world.received k = []) {peers : ℕ} {link : Link}
    (reachable : Reachable (step cap) { daemon := d₀, peers := peers } link) (s : Sending T)
    (distinct : T.Distinct) {route : N → ℕ} (routed : ∀ n, route n < peers)
    (begun : ∀ k < peers, (link.begun k).flatMap Message.bytes = s.stream route k)
    (stuck : ∀ input, drain cap link input = none) (running : link.daemon.status = .running)
    (spared : Spared fs.cwd link.daemon.world.calls) :
    Mirrored T (fun n => (s.send n).call.contents) fs link.daemon.world.fs := by
  have holds : Holds inherited fs dmsg d₀ link :=
    reachable.invariant (ready.holds peers) fun _ _ _ holds stepped => holds.after_step stepped
  have live := holds.live running
  have orderly := reachable_callsOrderly live.reachable
  have whole : ∀ k, link.daemon.world.received k = s.stream route k := by
    intro k
    rw [live.received_of_stuck room running ready.resting.streams stuck k, fresh, List.nil_append]
    by_cases inside : k < peers
    · exact begun k inside
    · have none_ : s.order.filter (route · = k) = [] := by
        refine List.filter_eq_nil_iff.2 fun n _ here => ?_
        have := routed n
        simp only [decide_eq_true_eq] at here
        omega
      rw [(reachable_begun reachable).2 k (Nat.le_of_not_lt inside), Sending.stream, none_]
      rfl
  -- The connection of a node was accepted, since something has arrived on it.
  have accepted : ∀ n, route n < link.daemon.world.accepted := by
    intro n
    by_contra late
    have none_ := congrArg (fun stream => finals (issuedAfter stream)) (whole (route n))
    simp only [(orderly.unborn _ (Nat.le_of_not_lt late)).1, Sending.stream,
      s.finals_issuedAfter] at none_
    have among : n ∈ s.order.filter (route · = route n) :=
      List.mem_filter.2 ⟨s.all n, by simp⟩
    rw [List.map_eq_nil_iff.1 none_.symm] at among
    cases among
  have delivered : Delivered s route id link.daemon.world :=
    ⟨fun j _ => whole j, fun n => ⟨route n, accepted n, rfl⟩⟩
  exact mirrored_of_completed distinct live.reachable running spared (delivered.idle orderly)
    (delivered.completed orderly)

end Trees

/-- The directory goes over the first of two connections and then the file over the second, through
sockets of 16 bytes. -/
def pairArrives : List Input :=
  [.start 0 (pairSending.send false).message, .write 0 16, .poll [{}, {}, { input := true }, {}],
    .pass, .pass, .enter {}, .read 16, .start 1 (pairSending.send true).message, .write 0 9,
    .write 1 16, .read 8, .read 1, .finish, .pass, .poll [{}, {}, {}, { input := true }], .pass,
    .pass, .pass, .enter {}, .read 10, .write 1 10, .read 14, .write 1 3, .read 3, .read 2, .finish]

theorem tree_arrives_sample : ∃ d link,
    run Daemon.step pairStart (spreadInputs.take 5) = some d ∧
      run (step 16) { daemon := d, peers := 2 } pairArrives = some link ∧
      Mirrored pairTree (fun n => (pairSending.send n).call.contents) sampleFs
        link.daemon.world.fs := by
  obtain ⟨d, accepts⟩ := Option.isSome_iff_exists.1
    (show (run Daemon.step pairStart (spreadInputs.take 5)).isSome by decide +kernel)
  have moves : ∀ d ∈ run Daemon.step pairStart (spreadInputs.take 5),
      (run (step 16) { daemon := d, peers := 2 } pairArrives).isSome := by
    decide +kernel
  obtain ⟨link, reaches⟩ := Option.isSome_iff_exists.1 (moves d accepts)
  have before : ∀ d ∈ run Daemon.step pairStart (spreadInputs.take 5), d.status = .running ∧
      d.idx = d.fds.length ∧ d.world.accepted = 2 ∧ ∀ k < 2, d.world.received k = [] := by
    decide +kernel
  have after : ∀ d ∈ run Daemon.step pairStart (spreadInputs.take 5),
      ∀ link ∈ run (step 16) { daemon := d, peers := 2 } pairArrives,
        link.daemon.status = .running ∧ Spared sampleFs.cwd link.daemon.world.calls ∧
          link.round.isNone ∧ link.daemon.fds[link.daemon.idx]?.isNone ∧
          (∀ k < 2, link.writing k = [] ∧ link.queue k = []) ∧
          ∀ k < 2, (link.begun k).flatMap Message.bytes = pairSending.stream Bool.toNat k := by
    decide +kernel
  obtain ⟨running, ended, two, empty⟩ := before d accepts
  obtain ⟨going, spared, round, over_, idle, begun⟩ := after d accepts link reaches
  obtain ⟨resting, -⟩ :=
    start_resting.after_run (k := 0) (.refl _) (by decide +kernel) accepts running
  have ready : Ready [true, true, true] sampleFs ⟨50000, 2⟩ d :=
    ⟨⟨_, accepts⟩, running, resting, ended⟩
  have fresh : ∀ k, d.world.received k = [] := by
    intro k
    by_cases inside : k < 2
    · exact empty k inside
    · exact ((reachable_callsOrderly ready.reachable).unborn k (by omega)).1
  have reachable : Reachable (step 16) { daemon := d, peers := 2 } link := ⟨_, reaches⟩
  have holds : Holds [true, true, true] sampleFs ⟨50000, 2⟩ d link :=
    reachable.invariant (ready.holds 2) fun _ _ _ holds stepped => holds.after_step stepped
  have peers := (reachable_begun reachable).1
  have quiet : Quiet link :=
    ⟨Option.isNone_iff_eq_none.1 round, Option.isNone_iff_eq_none.1 over_,
      fun k inside => (idle k (by omega)).1, fun k inside => (idle k (by omega)).2⟩
  exact ⟨d, link, accepts, reaches, tree_arrives (by decide) ready fresh reachable pairSending
    pairTree_distinct (by decide) begun (holds.stuck_of_quiet quiet) going spared⟩

end Enuwatch.Transport

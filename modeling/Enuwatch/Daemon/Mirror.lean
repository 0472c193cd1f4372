import Enuwatch.Daemon.Ordering
import Enuwatch.Daemon.Overlay
import Enuwatch.Daemon.Resync

/-!
# The tree that the daemon leaves

What the messages of several connections leave does not depend on the order in which they are
complete, as long as no two of them differ about one location (`Remote.replay_shown`). A daemon
that is between messages on every connection has no temporary file (`anonFiles_eq_nil`), so the
file system then shows what was there before and, where messages act, what they say
(`shown_of_idle`): two runs on the same messages end with the same tree, and a daemon that has
received all messages of a tree, on any number of connections and in any order, shows that tree.
-/

set_option autoImplicit false

namespace Enuwatch.Daemon

open Enuwatch.Lib Enuwatch.Net

/-! ## What is shown after a replay -/

/-- What a call leaves at the path it acts on. -/
def FsOp.shown : FsOp → Option (Bytes × Fs.Seen)
  | .mkdir path _ => some (path, .dir)
  | .rename path contents => some (path, .file contents)
  | _ => none

namespace Remote

variable {cwd : Loc} {t t' : Remote}

theorem apply_shown {op : FsOp} (applied : t.apply cwd op = some t') :
    match op.shown with
    | some (path, seen) => t' = Function.update t (locate cwd path) (some seen)
    | none => t' = t := by
  cases op with
  | mkdir path mode | rename path contents =>
      simp only [apply] at applied
      split at applied
      · exact (Option.some.inj applied).symm
      · cases applied
  | _ => exact (Option.some.inj applied).symm

/-- The last call on a location decides what is shown there; where none acts, the tree is as
before. -/
theorem replay_shown {ops : List FsOp} (replay : replay cwd t ops = some t') (loc : Loc) :
    (∃ op ∈ ops, ∃ path seen, op.shown = some (path, seen) ∧ locate cwd path = loc ∧
      t' loc = some seen) ∨
    ((∀ op ∈ ops, ∀ path seen, op.shown = some (path, seen) → locate cwd path ≠ loc) ∧
      t' loc = t loc) := by
  induction ops generalizing t with
  | nil =>
      obtain rfl := Option.some.inj replay
      exact .inr ⟨by simp, rfl⟩
  | cons op ops ih =>
      obtain ⟨mid, applied, later⟩ := Option.bind_eq_some_iff.1 replay
      have first := apply_shown applied
      rcases ih later with ⟨other, among, found⟩ | ⟨untouched, same⟩
      · exact .inl ⟨other, List.mem_cons_of_mem _ among, found⟩
      · -- No later call acts on the location; the first one may.
        cases acts : op.shown with
        | none =>
            rw [acts] at first
            refine .inr ⟨List.forall_mem_cons.2 ⟨by simp [acts], untouched⟩, ?_⟩
            rw [same, first]
        | some target =>
            obtain ⟨path, seen⟩ := target
            rw [acts] at first
            by_cases here : locate cwd path = loc
            · refine .inl ⟨op, List.mem_cons_self, path, seen, acts, here, ?_⟩
              rw [same, first, here, Function.update_self]
            · refine .inr ⟨List.forall_mem_cons.2 ⟨?_, untouched⟩, ?_⟩
              · rintro path' seen' acts'
                obtain ⟨rfl, rfl⟩ := Prod.mk.inj (Option.some.inj (acts.symm.trans acts'))
                exact here
              · rw [same, first, Function.update_of_ne (Ne.symm here)]

end Remote

/-! ## Between messages -/

/-- Every stream ends with a whole message. -/
def Idle (w : World) : Prop := ∀ k, phaseAfter (w.received k) = .header []

/-- A temporary file is made. -/
def FsOp.opens : FsOp → Bool
  | .mkstemp => true
  | _ => false

/-- A temporary file gets the name it is for. -/
def FsOp.publishes : FsOp → Bool
  | .rename _ _ => true
  | _ => false

/-- There are as many temporary files as were made and not renamed. -/
def Counted (w : World) : Prop :=
  w.anonFiles.length + w.calls.countP (·.op.publishes) = w.calls.countP (·.op.opens)

section Counting

variable {k : ℕ} {taken : Bytes → Prop} {st st' : ConnectionState} {w w' : World}

theorem Counted.grow (counted : Counted w) {calls : List Call}
    (longer : w'.calls = w.calls ++ calls)
    (balance : w'.anonFiles.length + calls.countP (·.op.publishes) =
      w.anonFiles.length + calls.countP (·.op.opens)) : Counted w' := by
  unfold Counted at counted ⊢
  rw [longer, List.countP_append, List.countP_append]
  omega

theorem Counted.mmap (counted : Counted w) {seq : UInt32} {temp : Bytes} {size : ℕ} :
    Counted (w.mmap k seq temp size true) := by
  refine counted.grow (by rw [World.mmap_calls, World.ftruncate_calls, List.append_assoc,
    List.append_assoc]) ?_
  rw [World.mmap_anonFiles]
  split <;> simp [FsOp.publishes, FsOp.opens]

theorem Counted.move (counted : Counted w) (shelf : Shelf taken st w)
    (move : Move k (st, w) (st', w')) : Counted w' := by
  cases move with
  | arm | header | read => exact counted
  | opened => exact counted.mmap
  | made =>
      refine counted.grow ((World.close_calls ..).trans (World.mkdir_calls ..)) ?_
      simp [FsOp.publishes, FsOp.opens, World.mkdir]
  | published kind full can =>
      have own := shelf.own kind
      have some_ := List.length_pos_of_mem own
      refine counted.grow ((World.close_calls ..).trans (World.rename_calls ..)) ?_
      simp only [World.close_anonFiles, List.length_erase_of_mem own]
      simp [FsOp.publishes, FsOp.opens]
      omega

theorem Chain.counted {s s' : ConnectionState × World} (chain : Chain k s s')
    (shelf : Shelf taken s.1 s.2) (counted : Counted s.2) : Counted s'.2 := by
  induction chain with
  | refl => exact counted
  | tail chain move ih => exact ih.move (Shelf.chain chain shelf) move

end Counting

section Events

variable {fs : Fs} {d d' : Server} {inherited : List Bool} {dmsg : DaemonInitMessage}

theorem Counted.event {input : Input} (counted : Counted d.world) (event : Event d input d')
    (shelved : Shelved d) (still : d'.status = .running) : Counted d'.world := by
  cases event with
  | polled | interrupted | skipped | admitted => exact counted
  | pollFailed | refused | overflowed | returned | dangling | failed =>
      simp [Server.returnFalse, Server.overflow] at still
  | @hungUp ans pfd here flagged =>
      have closes := hangUp_closes d pfd.fd
      have none_ : (d.hangUp pfd.fd).world.calls = d.world.calls ++ [] := by simp [closes.calls]
      exact counted.grow none_ (by simp [closes.anonFiles])
  | @woken ans pfd k st w here other conn chain rest =>
      exact Chain.counted chain (shelved.answered pfd.fd ans) counted

theorem reachable_counted (reachable : Reachable step (start inherited fs dmsg) d)
    (running : d.status = .running) : Counted d.world := by
  have both : Shelved d ∧ Counted d.world := by
    refine Server.invariant (I := fun d => d.status = .running → Shelved d ∧ Counted d.world)
      reachable (fun running => ⟨reachable_shelved (.refl _) running, rfl⟩) ?_ running
    intro d input d' running event before still
    obtain ⟨shelved, counted⟩ := before running
    exact ⟨shelved.event event (.inl still), counted.event event shelved still⟩
  exact both.2

/-- A whole message renames every temporary file it makes. -/
theorem countP_issued (m : Message) :
    m.issued.countP (·.op.publishes) = m.issued.countP (·.op.opens) := by
  unfold Message.issued Message.op opening
  split_ifs <;> rfl

theorem countP_messages (ms : List Message) :
    (ms.flatMap Message.issued).countP (·.op.publishes) =
      (ms.flatMap Message.issued).countP (·.op.opens) := by
  induction ms with
  | nil => rfl
  | cons m ms ih =>
      rw [List.flatMap_cons, List.countP_append, List.countP_append, countP_issued, ih]

/-- **A daemon that is between messages on every connection has no temporary file.** -/
theorem anonFiles_eq_nil (reachable : Reachable step (start inherited fs dmsg) d)
    (running : d.status = .running) (idle : Idle d.world) : d.world.anonFiles = [] := by
  have invariant := reachable_invariant reachable
  have balanced : d.world.calls.countP (·.op.publishes) = d.world.calls.countP (·.op.opens) := by
    refine countP_eq_of_classes (·.conn) _ _ _ fun k => ?_
    obtain ⟨ms, split⟩ := exists_messages (d.world.received k)
    have issued : issuedBy k d.world.calls = ms.flatMap Message.issued := by
      rw [invariant.complete (invariant.running running) k, split.done_eq, idle k]
      exact List.append_nil _
    have balance := countP_messages ms
    rw [← issued, issuedBy, List.countP_map, List.countP_map] at balance
    exact balance
  have counted := reachable_counted reachable running
  unfold Counted at counted
  exact List.eq_nil_of_length_eq_zero (by omega)

/-- A message that asks for `op` has arrived in full. -/
def Completed (w : World) (op : FsOp) : Prop :=
  ∃ k seq, ⟨seq, op⟩ ∈ finals (issuedAfter (w.received k))

/-- What is asked for by whole messages is what was done. -/
theorem mem_doneOps_iff (reachable : Reachable step (start inherited fs dmsg) d)
    (running : d.status = .running) {op : FsOp} (final : op.isFinal = true) :
    op ∈ doneOps d.world.calls ↔ Completed d.world op := by
  have invariant := reachable_invariant reachable
  have unfailed := invariant.running running
  have complete := invariant.complete unfailed
  rw [doneOps, List.filter_eq_self.2 unfailed, List.mem_map]
  constructor
  · rintro ⟨call, among, rfl⟩
    refine ⟨call.conn, call.seq, List.mem_filter.2 ⟨?_, final⟩⟩
    rw [← complete, issuedBy]
    exact List.mem_map.2 ⟨call, List.mem_filter.2 ⟨among, by simp⟩, rfl⟩
  · rintro ⟨k, seq, issued⟩
    rw [← complete] at issued
    obtain ⟨call, among, same⟩ := List.mem_map.1 (List.mem_of_mem_filter issued)
    exact ⟨call, List.mem_of_mem_filter among, congrArg Issued.op same⟩

theorem FsOp.isFinal_of_shown {op : FsOp} {target : Bytes × Fs.Seen}
    (shown : op.shown = some target) : op.isFinal = true := by
  cases op with
  | mkdir | rename => rfl
  | _ => cases shown

/-- **What is shown between messages**: at a location that messages act on what one of them
says, and elsewhere what was there before. -/
theorem shown_of_idle (reachable : Reachable step (start inherited fs dmsg) d)
    (running : d.status = .running) (spared : Spared fs.cwd d.world.calls) (idle : Idle d.world)
    (loc : Loc) :
    (∃ op, Completed d.world op ∧ ∃ path seen, op.shown = some (path, seen) ∧
      locate fs.cwd path = loc ∧ d.world.fs.seenAt loc = some seen) ∨
    ((∀ op, Completed d.world op → ∀ path seen, op.shown = some (path, seen) →
      locate fs.cwd path ≠ loc) ∧ d.world.fs.seenAt loc = fs.seenAt loc) := by
  obtain ⟨t, over_⟩ := (reachable_layers reachable spared).shows running
  have shown : d.world.fs.seenAt loc = t loc := over_.rest loc (by
    rw [anonFiles_eq_nil reachable running idle]
    nofun)
  have done : ∀ {op : FsOp}, op.isFinal = true →
      (op ∈ doneOps d.world.calls ↔ Completed d.world op) := mem_doneOps_iff reachable running
  rw [shown]
  refine (Remote.replay_shown over_.replay loc).imp ?_ ?_
  · rintro ⟨op, among, path, seen, acts, here, seen_eq⟩
    exact ⟨op, (done (FsOp.isFinal_of_shown acts)).1 among, path, seen, acts, here, seen_eq⟩
  · rintro ⟨untouched, same⟩
    refine ⟨fun op completed path seen acts => ?_, same⟩
    exact untouched op ((done (FsOp.isFinal_of_shown acts)).2 completed) path seen acts

end Events

/-! ## A whole tree -/

section Trees

variable {N : Type} (T : Tree N) (contents : N → Bytes)

/-- What the message of a node is for, when its contents are given. -/
def nodeOp (n : N) : FsOp :=
  if (T.info n).ftype = .regular then .rename (T.sentPath n) (contents n)
  else .mkdir (T.sentPath n) 0

/-- What a node is to be on the remote side. -/
def nodeSeen (n : N) : Fs.Seen :=
  if (T.info n).ftype = .regular then .file (contents n) else .dir

theorem shown_nodeOp (n : N) :
    (nodeOp T contents n).shown = some (T.sentPath n, nodeSeen T contents n) := by
  unfold nodeOp nodeSeen
  split <;> rfl

/-- The tree stands where the daemon runs, and everything else is as it was. -/
structure Mirrored (before after : Fs) : Prop where
  nodes : ∀ n, after.seenAt (before.cwd ++ T.path n) = some (nodeSeen T contents n)
  rest : ∀ loc, (∀ n, before.cwd ++ T.path n ≠ loc) → after.seenAt loc = before.seenAt loc

variable {T contents}

/-- The messages of a tree and no others have arrived. -/
theorem mirrored_of_completed (distinct : T.Distinct) {inherited : List Bool} {fs : Fs}
    {dmsg : DaemonInitMessage} {d : Server}
    (reachable : Reachable step (start inherited fs dmsg) d) (running : d.status = .running)
    (spared : Spared fs.cwd d.world.calls) (idle : Idle d.world)
    (completed : ∀ op, Completed d.world op ↔ ∃ n, nodeOp T contents n = op) :
    Mirrored T contents fs d.world.fs := by
  constructor
  · intro n
    rcases shown_of_idle reachable running spared idle (fs.cwd ++ T.path n) with
      ⟨op, whole, path, seen, acts, here, shown⟩ | ⟨untouched, -⟩
    · -- The message that acts here is that of a node with this path, so of this node.
      obtain ⟨m, rfl⟩ := (completed op).1 whole
      rw [shown_nodeOp] at acts
      obtain ⟨rfl, rfl⟩ := Prod.mk.inj (Option.some.inj acts)
      rw [Tree.locate_sentPath] at here
      rw [shown, distinct.path_injective (List.append_cancel_left here)]
    · have acts := untouched _ ((completed _).2 ⟨n, rfl⟩) _ _ (shown_nodeOp T contents n)
      exact absurd (Tree.locate_sentPath fs.cwd n) acts
  · intro loc outside
    rcases shown_of_idle reachable running spared idle loc with
      ⟨op, whole, path, seen, acts, here, -⟩ | ⟨-, same⟩
    · obtain ⟨m, rfl⟩ := (completed op).1 whole
      rw [shown_nodeOp] at acts
      obtain ⟨rfl, rfl⟩ := Prod.mk.inj (Option.some.inj acts)
      exact absurd ((Tree.locate_sentPath fs.cwd m).symm.trans here) (outside m)
    · exact same

variable {C : Type} [DecidableEq C]

/-- Every connection has carried the messages of its nodes, and every node has a connection. -/
structure Delivered (s : Sending T) (route : N → C) (label : ℕ → C) (w : World) : Prop where
  whole : ∀ j < w.accepted, w.received j = s.stream route (label j)
  covers : ∀ n, ∃ j < w.accepted, label j = route n

section Delivered

variable {s : Sending T} {route : N → C} {label : ℕ → C} {inherited : List Bool} {fs : Fs}
  {dmsg : DaemonInitMessage} {d : Server}

theorem Delivered.idle (delivered : Delivered s route label d.world)
    (orderly : CallsOrderly d) : Idle d.world := by
  intro k
  by_cases accepted : k < d.world.accepted
  · rw [delivered.whole k accepted]
    exact s.phaseAfter_flatMap _
  · rw [(orderly.unborn k (Nat.le_of_not_lt accepted)).1]
    rfl

theorem Delivered.completed (delivered : Delivered s route label d.world)
    (orderly : CallsOrderly d) (op : FsOp) :
    Completed d.world op ↔ ∃ n, nodeOp T (fun n => (s.send n).call.contents) n = op := by
  have same : ∀ n, (s.send n).op = nodeOp T (fun n => (s.send n).call.contents) n := s.op_eq
  constructor
  · rintro ⟨k, seq, issued⟩
    by_cases accepted : k < d.world.accepted
    · rw [delivered.whole k accepted, Sending.stream, s.finals_issuedAfter] at issued
      obtain ⟨n, -, equal⟩ := List.mem_map.1 issued
      exact ⟨n, (same n).symm.trans (congrArg Issued.op equal)⟩
    · rw [(orderly.unborn k (Nat.le_of_not_lt accepted)).1] at issued
      cases issued
  · rintro ⟨n, rfl⟩
    obtain ⟨j, accepted, carries⟩ := delivered.covers n
    refine ⟨j, (s.send n).call.seq, ?_⟩
    rw [delivered.whole j accepted, Sending.stream, s.finals_issuedAfter, ← same]
    exact List.mem_map.2 ⟨n, List.mem_filter.2 ⟨s.all n, by simp [carries]⟩, rfl⟩

end Delivered

/-- **A tree that has arrived is there.** The messages of a tree are spread over any number of
connections and arrive in any pieces and in any order. When all of them have arrived and the
daemon is still there, the file system shows every node of the tree at its path, a file with the
contents that were sent, and everything else as it was before, without a temporary file. -/
theorem tree_mirrored (s : Sending T) (distinct : T.Distinct) {route : N → C} {label : ℕ → C}
    {inherited : List Bool} {fs : Fs} {dmsg : DaemonInitMessage} {d : Server}
    (reachable : Reachable step (start inherited fs dmsg) d) (running : d.status = .running)
    (spared : Spared fs.cwd d.world.calls) (delivered : Delivered s route label d.world) :
    Mirrored T (fun n => (s.send n).call.contents) fs d.world.fs := by
  have orderly := reachable_callsOrderly reachable
  exact mirrored_of_completed distinct reachable running spared (delivered.idle orderly)
    (delivered.completed orderly)

end Trees

theorem pairTree_distinct : pairTree.Distinct := by
  unfold Tree.Distinct
  decide

/-- Both connections are accepted; the directory arrives on the first one and the file, in
several pieces, on the second. -/
def spreadInputs : List Input :=
  let header n := ((pairCall n).header (pairTree.sentPath n)).encode ⟨0, 0⟩
  [.poll [{ input := true }, { input := true }], .round {}, .round {}, .round {}, .round {},
    .poll [{}, {}, { input := true }, { input := true }], .round {}, .round {},
    .round { reads := [.data (header false), .data (pairTree.sentPath false)] },
    .round { reads := [.data ((header true).take 9), .retry, .data ((header true).drop 9),
      .data (pairTree.sentPath true), .data [1, 2]] }]

theorem exists_spread :
    ∃ d, run step pairStart spreadInputs = some d ∧ d.status = .running ∧
      Spared sampleFs.cwd d.world.calls ∧ Delivered pairSending id (· = 1) d.world := by
  have facts : ∀ d ∈ run step pairStart spreadInputs, d.status = .running ∧
      Spared sampleFs.cwd d.world.calls ∧ d.world.accepted = 2 ∧
      ∀ j < 2, d.world.received j = pairSending.stream id (j = 1) := by
    decide +kernel
  obtain ⟨d, reaches⟩ := Option.isSome_iff_exists.1
    (show (run step pairStart spreadInputs).isSome by decide +kernel)
  obtain ⟨running, spared, accepted, whole⟩ := facts d reaches
  refine ⟨d, reaches, running, spared, by rwa [accepted], ?_⟩
  rw [accepted]
  decide

theorem tree_mirrored_sample :
    ∃ d, run step pairStart spreadInputs = some d ∧
      Mirrored pairTree (fun n => (pairSending.send n).call.contents) sampleFs d.world.fs ∧
      d.world.fs.seenAt [[114], [97]] = some (.file [1, 2]) := by
  obtain ⟨d, reaches, running, spared, delivered⟩ := exists_spread
  have reachable : Reachable step (start [true, true, true] sampleFs ⟨50000, 2⟩) d :=
    ⟨_, reaches⟩
  have mirrored := tree_mirrored pairSending pairTree_distinct reachable running spared delivered
  exact ⟨d, reaches, mirrored, mirrored.nodes true⟩

/-- The same messages on one connection. -/
theorem exists_handed :
    ∃ d, run step sampleStart (handInputs [false, true]) = some d ∧ d.status = .running ∧
      Spared sampleFs.cwd d.world.calls ∧
      Delivered pairSending (fun _ => ()) (fun _ => ()) d.world := by
  have facts : ∀ d ∈ run step sampleStart (handInputs [false, true]), d.status = .running ∧
      Spared sampleFs.cwd d.world.calls ∧ d.world.accepted = 1 ∧
      ∀ j < 1, d.world.received j = pairSending.stream (fun _ => ()) () := by
    decide +kernel
  obtain ⟨d, reaches⟩ := Option.isSome_iff_exists.1
    (show (run step sampleStart (handInputs [false, true])).isSome by decide +kernel)
  obtain ⟨running, spared, accepted, whole⟩ := facts d reaches
  exact ⟨d, reaches, running, spared, by rwa [accepted], fun n => ⟨0, by simp [accepted], rfl⟩⟩

/-! ## Any order of arrival -/

/-- Whole messages that act on one location say the same about it. -/
def Agreeing (cwd : Loc) (w : World) : Prop :=
  ∀ op op', Completed w op → Completed w op' → ∀ path path' seen seen',
    op.shown = some (path, seen) → op'.shown = some (path', seen') →
    locate cwd path = locate cwd path' → seen = seen'

/-- The messages of a tree agree. -/
theorem agreeing_of_completed {N : Type} {T : Tree N} {contents : N → Bytes}
    (distinct : T.Distinct) {w : World}
    (completed : ∀ op, Completed w op → ∃ n, nodeOp T contents n = op) (cwd : Loc) :
    Agreeing cwd w := by
  rintro op op' whole whole' path path' seen seen' acts acts' same
  obtain ⟨n, rfl⟩ := completed op whole
  obtain ⟨m, rfl⟩ := completed op' whole'
  rw [shown_nodeOp] at acts acts'
  obtain ⟨rfl, rfl⟩ := Prod.mk.inj (Option.some.inj acts)
  obtain ⟨rfl, rfl⟩ := Prod.mk.inj (Option.some.inj acts')
  rw [Tree.locate_sentPath, Tree.locate_sentPath] at same
  rw [distinct.path_injective (List.append_cancel_left same)]

/-- **The order in which messages are complete does not matter.** Two runs that have received the
same messages, on whatever connections, in whatever pieces and in whatever order, and that are
between messages, show the same tree. -/
theorem order_irrelevant {inherited₁ inherited₂ : List Bool} {fs : Fs}
    {dmsg₁ dmsg₂ : DaemonInitMessage} {d₁ d₂ : Server}
    (reachable₁ : Reachable step (start inherited₁ fs dmsg₁) d₁) (running₁ : d₁.status = .running)
    (reachable₂ : Reachable step (start inherited₂ fs dmsg₂) d₂) (running₂ : d₂.status = .running)
    (spared₁ : Spared fs.cwd d₁.world.calls) (spared₂ : Spared fs.cwd d₂.world.calls)
    (idle₁ : Idle d₁.world) (idle₂ : Idle d₂.world)
    (same : ∀ op, Completed d₁.world op ↔ Completed d₂.world op)
    (agreeing : Agreeing fs.cwd d₁.world) (loc : Loc) :
    d₁.world.fs.seenAt loc = d₂.world.fs.seenAt loc := by
  rcases shown_of_idle reachable₁ running₁ spared₁ idle₁ loc with
    ⟨op, completed, path, seen, acts, here, shown⟩ | ⟨untouched, shown⟩
  · rcases shown_of_idle reachable₂ running₂ spared₂ idle₂ loc with
      ⟨op', completed', path', seen', acts', here', shown'⟩ | ⟨untouched', -⟩
    · rw [shown, shown', agreeing op op' completed ((same op').2 completed') path path' seen seen'
        acts acts' (here.trans here'.symm)]
    · exact absurd here (untouched' op ((same op).1 completed) path seen acts)
  · rcases shown_of_idle reachable₂ running₂ spared₂ idle₂ loc with
      ⟨op', completed', path', seen', acts', here', -⟩ | ⟨-, shown'⟩
    · exact absurd here' (untouched op' ((same op').2 completed') path' seen' acts')
    · rw [shown, shown']

theorem order_irrelevant_sample :
    ∃ d₁ d₂, run step sampleStart (handInputs [false, true]) = some d₁ ∧
      run step pairStart spreadInputs = some d₂ ∧
      ∀ loc, d₁.world.fs.seenAt loc = d₂.world.fs.seenAt loc := by
  obtain ⟨d₁, reaches₁, running₁, spared₁, delivered₁⟩ := exists_handed
  obtain ⟨d₂, reaches₂, running₂, spared₂, delivered₂⟩ := exists_spread
  have reachable₁ : Reachable step (start [true, true, true] sampleFs ⟨50000, 1⟩) d₁ :=
    ⟨_, reaches₁⟩
  have reachable₂ : Reachable step (start [true, true, true] sampleFs ⟨50000, 2⟩) d₂ :=
    ⟨_, reaches₂⟩
  have orderly₁ := reachable_callsOrderly reachable₁
  have orderly₂ := reachable_callsOrderly reachable₂
  refine ⟨d₁, d₂, reaches₁, reaches₂, order_irrelevant reachable₁ running₁ reachable₂ running₂
    spared₁ spared₂ (delivered₁.idle orderly₁) (delivered₂.idle orderly₂) (fun op => ?_)
    (agreeing_of_completed pairTree_distinct
      (fun op => (delivered₁.completed orderly₁ op).1) sampleFs.cwd)⟩
  rw [delivered₁.completed orderly₁, delivered₂.completed orderly₂]

end Enuwatch.Daemon

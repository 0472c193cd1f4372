import Enuwatch.Daemon.Feed
import Enuwatch.Daemon.Sending

/-!
# Sending a tree again

No call of the daemon removes a directory or replaces one (`Fs.KeepsDirs`), and it makes one only
where nothing is. So a directory that a message made is still there when the run is over, and the
same message makes the daemon of the next run exit (`resync_fatal`): its `mkdir` cannot succeed
where a directory is, and every `mkdir` that fails is fatal. The `rename` of a file over the
file that is already there does succeed.
-/

set_option autoImplicit false

namespace Enuwatch

namespace Fs

/-- Directories stay where they are. -/
structure KeepsDirs (fs fs' : Fs) : Prop where
  cwd : fs'.cwd = fs.cwd
  dirs : ∀ loc mode, fs.entries loc = some (.dir mode) → fs'.entries loc = some (.dir mode)

namespace KeepsDirs

variable {fs fs' fs'' : Fs} {loc src dst : Loc}

theorem refl (fs : Fs) : KeepsDirs fs fs := ⟨rfl, fun _ _ => id⟩

theorem trans (first : KeepsDirs fs fs') (second : KeepsDirs fs' fs'') : KeepsDirs fs fs'' :=
  ⟨second.cwd.trans first.cwd,
    fun loc mode there => second.dirs loc mode (first.dirs loc mode there)⟩

theorem of_entries (cwd : fs'.cwd = fs.cwd) (entries : fs'.entries = fs.entries) :
    KeepsDirs fs fs' :=
  ⟨cwd, fun loc mode there => by rwa [entries]⟩

theorem mkdir (free : fs.entries dst = none) (mode : ℕ) : KeepsDirs fs (fs.mkdir dst mode) := by
  refine ⟨rfl, fun loc mode' there => ?_⟩
  have other : loc ≠ dst := by
    rintro rfl
    simp [free] at there
  simpa [Fs.mkdir, other] using there

theorem create (free : fs.entries dst = none) : KeepsDirs fs (fs.create dst) := by
  refine ⟨rfl, fun loc mode there => ?_⟩
  have other : loc ≠ dst := by
    rintro rfl
    simp [free] at there
  simpa [Fs.create, other] using there

theorem rename (can : fs.CanRename src dst) : KeepsDirs fs (fs.rename src dst) := by
  refine ⟨cwd_rename .., fun loc mode there => ?_⟩
  obtain ⟨file, -, -, target⟩ := can
  have notSrc : loc ≠ src := by
    rintro rfl
    simp [fileAt, there] at file
  have notDst : loc ≠ dst := by
    rintro rfl
    simp [fileAt, there] at target
  unfold Fs.rename
  split
  · exact there
  · simpa [notSrc, notDst] using there

theorem unlink (fs : Fs) (dst : Loc) : KeepsDirs fs (fs.unlink dst) := by
  refine ⟨cwd_unlink .., fun loc mode there => ?_⟩
  unfold Fs.unlink
  split
  · rename_i ino file
    have other : loc ≠ dst := by
      rintro rfl
      simp [file] at there
    simpa [other] using there
  · exact there

end KeepsDirs

end Fs

namespace Daemon

open Enuwatch.Lib Enuwatch.Net

/-- The directories of the start are still there, and each directory that was made is there now
and was not at the start. -/
structure Lasting (fs₀ : Fs) (w : World) : Prop where
  kept : fs₀.KeepsDirs w.fs
  made : ∀ call ∈ w.calls, call.ok = true → ∀ path mode, call.op = .mkdir path mode →
    (∃ m, w.fs.entries (locate fs₀.cwd path) = some (.dir m)) ∧
      ∀ m, fs₀.entries (locate fs₀.cwd path) ≠ some (.dir m)

section Moves

variable {fs₀ : Fs} {k : ℕ} {s s' : ConnectionState × World} {w w' : World}

/-- Further calls; those that make a directory make one that was not there. -/
theorem Lasting.grow (lasting : Lasting fs₀ w) (kept : w.fs.KeepsDirs w'.fs) {calls : List Call}
    (longer : w'.calls = w.calls ++ calls)
    (made : ∀ call ∈ calls, call.ok = true → ∀ path mode, call.op = .mkdir path mode →
      (∃ m, w'.fs.entries (locate fs₀.cwd path) = some (.dir m)) ∧
        ∀ m, fs₀.entries (locate fs₀.cwd path) ≠ some (.dir m)) :
    Lasting fs₀ w' := by
  refine ⟨lasting.kept.trans kept, fun call among ok path mode op => ?_⟩
  rw [longer] at among
  obtain old | new := List.mem_append.1 among
  · obtain ⟨⟨m, there⟩, absent⟩ := lasting.made call old ok path mode op
    exact ⟨⟨m, kept.dirs _ _ there⟩, absent⟩
  · exact made call new ok path mode op

theorem Lasting.of_fields (lasting : Lasting fs₀ w) (fs : w'.fs = w.fs)
    (calls : w'.calls = w.calls) : Lasting fs₀ w' :=
  lasting.grow (by rw [fs]; exact .refl _) (calls.trans (List.append_nil _).symm) nofun

/-- A directory is made where nothing is. -/
theorem Lasting.mkdir (lasting : Lasting fs₀ w) {seq : UInt32} {path : Bytes} {mode : ℕ}
    (free : w.fs.CanCreate (w.locate path)) : Lasting fs₀ (w.mkdir k seq path mode true) := by
  have here : w.locate path = locate fs₀.cwd path := by rw [World.locate, lasting.kept.cwd]
  refine lasting.grow (.mkdir free.2.1 mode) (World.mkdir_calls ..) ?_
  intro call among ok path' mode' op
  obtain rfl := List.mem_singleton.1 among
  cases op
  rw [← here]
  refine ⟨⟨mode, by simp [Fs.mkdir]⟩, fun m before => ?_⟩
  have still := lasting.kept.dirs _ _ before
  rw [free.2.1] at still
  cases still

theorem KeepsDirs.stored (st : ConnectionState) (target : Target) (block : Bytes) (fs : Fs) :
    fs.KeepsDirs (target.storeFs block st fs) := by
  cases target with
  | buf => exact .refl _
  | map => exact .of_entries (by simp [Target.storeFs]) (by simp [Target.storeFs])

theorem KeepsDirs.opened {loc : Loc} {fs : Fs} (free : fs.CanCreate loc) (ino size : ℕ) :
    fs.KeepsDirs ((fs.create loc).truncate ino size) :=
  (Fs.KeepsDirs.create free.2.1).trans (.of_entries rfl rfl)

/-- **Every move keeps the directories.** -/
theorem Lasting.move (lasting : Lasting fs₀ s.2) (move : Move k s s') : Lasting fs₀ s'.2 := by
  cases move with
  | arm => exact lasting
  | read => exact lasting.grow (KeepsDirs.stored ..) (List.append_nil _).symm nofun
  | header => exact lasting
  | opened temp kind full regular free =>
      refine lasting.grow (by rw [World.mmap_fs]; exact KeepsDirs.opened free _ _)
        (by rw [World.mmap_calls, World.ftruncate_calls, List.append_assoc, List.append_assoc]) ?_
      intro call among ok path mode op
      simp only [List.mem_append, List.mem_singleton] at among
      obtain rfl | rfl | among := among
      · cases op
      · cases op
      · split at among
        · obtain rfl := List.mem_singleton.1 among
          cases op
        · cases among
  | made kind full other free =>
      exact (lasting.mkdir free).of_fields (World.close_fs ..) (World.close_calls ..)
  | published kind full can =>
      refine lasting.grow ?_ (World.close_calls ..) (by simp)
      rw [World.close_fs]
      exact .rename can

theorem Chain.lasting (chain : Chain k s s') (lasting : Lasting fs₀ s.2) : Lasting fs₀ s'.2 := by
  induction chain with
  | refl => exact lasting
  | tail _ move ih => exact ih.move move

theorem Lasting.abort {e : Exit} (lasting : Lasting fs₀ s.2) (abort : Abort k s e w)
    (answered : e ≠ .blocked) : Lasting fs₀ w := by
  cases abort with
  | blocked => exact absurd rfl answered
  | read => exact lasting.grow (KeepsDirs.stored ..) (List.append_nil _).symm nofun
  | mkstemp => exact lasting.grow (.refl _) (World.mkstemp_calls ..) (by simp)
  | ftruncate temp kind full regular free =>
      exact lasting.grow (.create free.2.1)
        (by rw [World.ftruncate_calls, List.append_assoc]) (by simp)
  | mmap temp kind full regular free counted =>
      refine lasting.grow (by rw [World.mmap_fs]; exact KeepsDirs.opened free _ _)
        (by rw [World.mmap_calls, World.ftruncate_calls, if_pos counted, List.append_assoc,
          List.append_assoc]) (by simp)
  | mkdir => exact lasting.grow (.refl _) (World.mkdir_calls ..) (by simp)
  | rename => exact lasting.grow (.refl _) (World.rename_calls ..) (by simp)

theorem Lasting.unlinkAnonFiles (lasting : Lasting fs₀ w) : Lasting fs₀ (unlinkAnonFiles w) := by
  unfold Daemon.unlinkAnonFiles
  induction w.anonFiles generalizing w with
  | nil => exact lasting
  | cons path paths ih =>
      exact ih (lasting.grow (.unlink w.fs (w.locate path)) (List.append_nil _).symm nofun)

theorem Lasting.returnFalse (lasting : Lasting fs₀ w) (d : Server) :
    Lasting fs₀ (d.returnFalse w).world := by
  have closes := destroyAll_closes d.states w
  exact (lasting.of_fields closes.fs closes.calls).unlinkAnonFiles

end Moves

/-! ## Every run -/

section Runs

variable {fs₀ : Fs} {inherited : List Bool} {dmsg : DaemonInitMessage} {d d' : Server}

theorem Lasting.event {input : Input} (event : Event d input d') (lasting : Lasting fs₀ d.world) :
    Lasting fs₀ d'.world := by
  cases event with
  | polled | interrupted | pollFailed | skipped | refused => exact lasting
  | @hungUp ans pfd here flagged =>
      have closes := hangUp_closes d pfd.fd
      exact lasting.of_fields closes.fs closes.calls
  | admitted | overflowed => exact lasting.of_fields rfl rfl
  | @woken ans pfd k st w here other conn chain rest =>
      exact Chain.lasting chain (lasting.of_fields rfl rfl)
  | @returned ans pfd k st w here other conn cut =>
      obtain ⟨mid, chain, abort⟩ := cut
      exact ((Chain.lasting chain (lasting.of_fields rfl rfl)).abort abort nofun).returnFalse _
  | @failed ans pfd k w here other conn cut =>
      obtain ⟨mid, chain, abort⟩ := cut
      exact (Chain.lasting chain (lasting.of_fields rfl rfl)).abort abort nofun
  | dangling => exact lasting.returnFalse _

/-- The directories last in every run. -/
theorem reachable_lasting (reachable : Reachable step (start inherited fs₀ dmsg) d) :
    Lasting fs₀ d.world :=
  Server.invariant reachable (I := fun d => Lasting fs₀ d.world) ⟨.refl _, nofun⟩
    fun _ _ _ _ event lasting => lasting.event event

/-- A call that fails is fatal. -/
theorem reachable_unfailed (reachable : Reachable step (start inherited fs₀ dmsg) d)
    (alive : d.status ≠ .fatal) : Unfailed d.world := by
  refine Server.invariant reachable
    (I := fun d => Invariant d ∧ (d.status ≠ .fatal → Unfailed d.world))
    ⟨reachable_invariant (.refl _), fun _ => nofun⟩ ?_ |>.2 alive
  rintro d input d' running event ⟨invariant, -⟩
  exact ⟨invariant.event running event, event.unfailed (invariant.running running)⟩

variable {N : Type} {T : Tree N}

/-- A run that has received the message of the root and goes on has made its directory. -/
theorem Sending.made_root (s : Sending T)
    (reachable : Reachable step (start inherited fs₀ dmsg) d) (unfailed : Unfailed d.world) {k : ℕ}
    (received : (s.send T.root).bytes <+: d.world.received k) :
    (∃ m, d.world.fs.entries (locate fs₀.cwd (T.sentPath T.root)) = some (.dir m)) ∧
      ∀ m, fs₀.entries (locate fs₀.cwd (T.sentPath T.root)) ≠ some (.dir m) := by
  have asked := issuedAfter_isPrefix received
  have first := s.finals_issuedAfter [T.root]
  rw [List.flatMap_singleton] at first
  have among : (⟨(s.send T.root).call.seq, (s.send T.root).op⟩ : Issued) ∈
      issuedBy k d.world.calls := by
    rw [(reachable_invariant reachable).complete unfailed k]
    refine asked.subset (List.mem_of_mem_filter (p := fun issued => issued.op.isFinal) ?_)
    rw [← finals, first]
    exact List.mem_cons_self
  obtain ⟨call, issued, equal⟩ := List.mem_map.1 among
  have op : call.op = .mkdir (T.sentPath T.root) 0 :=
    (congrArg Issued.op equal).trans s.op_root
  have member := List.mem_of_mem_filter issued
  exact (reachable_lasting reachable).made call member (unfailed call member) _ _ op

end Runs

/-- **A tree cannot be sent twice.** When a run has received all messages of a tree on one
connection and no call of it failed, every later run on the file system it left that receives the
message of the root ends with a fatal exit, and every daemon that listens can receive it. -/
theorem resync_fatal {N : Type} {T : Tree N} (s : Sending T) {inherited : List Bool} {fs : Fs}
    {dmsg : DaemonInitMessage} {d : Server} (first : Reachable step (start inherited fs dmsg) d)
    (unfailed : Unfailed d.world) {k : ℕ}
    (applied : d.world.received k = s.order.flatMap fun n => (s.send n).bytes) :
    (∀ inherited₂ dmsg₂ d₂ k₂, Reachable step (start inherited₂ d.world.fs dmsg₂) d₂ →
      (s.send T.root).bytes <+: d₂.world.received k₂ → d₂.status = .fatal) ∧
    ∀ inherited₂ dmsg₂, dmsg₂.nConns ≠ 0 →
      ∃ d₂, Reachable step (start inherited₂ d.world.fs dmsg₂) d₂ ∧
        d₂.world.received 0 = (s.send T.root).bytes ∧ d₂.status = .fatal := by
  have there : ∃ m, d.world.fs.entries (locate d.world.fs.cwd (T.sentPath T.root)) =
      some (.dir m) := by
    rw [(reachable_lasting first).kept.cwd]
    have received : (s.send T.root).bytes <+: d.world.received k := by
      obtain ⟨rest, order⟩ := s.order_head
      rw [applied, order, List.flatMap_cons]
      exact List.prefix_append _ _
    exact (s.made_root first unfailed received).1
  have again : ∀ inherited₂ dmsg₂ d₂ k₂, Reachable step (start inherited₂ d.world.fs dmsg₂) d₂ →
      (s.send T.root).bytes <+: d₂.world.received k₂ → d₂.status = .fatal := by
    intro inherited₂ dmsg₂ d₂ k₂ second received
    by_contra alive
    obtain ⟨m, found⟩ := there
    exact (s.made_root second (reachable_unfailed second alive) received).2 m found
  refine ⟨again, fun inherited₂ dmsg₂ listens => ?_⟩
  have directory : ¬ isRegular (s.send T.root).message.hdr := by
    intro regular
    have file := (s.send T.root).isRegular_iff.1 regular
    rw [s.info, T.root_directory] at file
    cases file
  obtain ⟨d₂, second, -, received, -⟩ := exists_fed inherited₂ d.world.fs dmsg₂ listens
    (m := (s.send T.root).message) (fun regular => absurd regular directory)
    fun regular => absurd regular directory
  rw [Sent.message_bytes] at received
  exact ⟨d₂, second, received, again _ _ d₂ 0 second (received ▸ List.prefix_rfl)⟩

/-- A connection is accepted, and the messages of some nodes of the sample tree arrive. -/
def handInputs (nodes : List Bool) : List Input :=
  [.poll [{ input := true }], .round {}, .round {}] ++ nodes.flatMap fun n =>
    [.poll [{}, { input := true }], .round {},
      .round { reads := [.data (((pairCall n).header (pairTree.sentPath n)).encode ⟨0, 0⟩),
        .data (pairTree.sentPath n)] ++ if n then [.data [1, 2]] else [] }]

theorem resync_fatal_sample :
    ∃ d, run step sampleStart (handInputs [false, true]) = some d ∧
      d.world.fs.seenAt [[114], [97]] = some (.file [1, 2]) ∧
      ∃ d₂, Reachable step (start [true, true, true] d.world.fs ⟨50000, 1⟩) d₂ ∧
        d₂.status = .fatal := by
  have facts : ∀ d ∈ run step sampleStart (handInputs [false, true]),
      Unfailed d.world ∧ d.world.fs.seenAt [[114], [97]] = some (.file [1, 2]) ∧
        d.world.received 0 = pairSending.order.flatMap fun n => (pairSending.send n).bytes := by
    unfold Unfailed
    decide +kernel
  obtain ⟨d, reaches⟩ := Option.isSome_iff_exists.1 (show (run step sampleStart
    (handInputs [false, true])).isSome by decide +kernel)
  obtain ⟨unfailed, shown, applied⟩ := facts d reaches
  have reachable : Reachable step (start [true, true, true] sampleFs ⟨50000, 1⟩) d := ⟨_, reaches⟩
  obtain ⟨d₂, second, -, fatal⟩ :=
    (resync_fatal pairSending reachable unfailed applied).2 [true, true, true] ⟨50000, 1⟩
      (by decide)
  exact ⟨d, reaches, shown, d₂, second, fatal⟩

/-- The second daemon exits when it is asked to make the directory that the first one made. -/
theorem second_run_fatal :
    ∃ d d₂, run step sampleStart (handInputs [false, true]) = some d ∧
      d.status = .running ∧
      (d.world.received 0 = pairSending.order.flatMap fun n => (pairSending.send n).bytes) ∧
      run step (start [true, true, true] d.world.fs ⟨50000, 1⟩) (handInputs [false]) = some d₂ ∧
      d₂.world.received 0 = (pairSending.send pairTree.root).bytes ∧ d₂.status = .fatal := by
  have facts : ∀ d ∈ run step sampleStart (handInputs [false, true]),
      d.status = .running ∧
      (d.world.received 0 = pairSending.order.flatMap fun n => (pairSending.send n).bytes) ∧
      (run step (start [true, true, true] d.world.fs ⟨50000, 1⟩) (handInputs [false])).isSome ∧
      ∀ d₂ ∈ run step (start [true, true, true] d.world.fs ⟨50000, 1⟩) (handInputs [false]),
        d₂.world.received 0 = (pairSending.send pairTree.root).bytes ∧ d₂.status = .fatal := by
    decide +kernel
  obtain ⟨d, reaches⟩ := Option.isSome_iff_exists.1 (show (run step sampleStart
    (handInputs [false, true])).isSome by decide +kernel)
  obtain ⟨running, applied, goes, ends⟩ := facts d reaches
  obtain ⟨d₂, again⟩ := Option.isSome_iff_exists.1 goes
  exact ⟨d, d₂, reaches, running, applied, again, ends d₂ again⟩

end Daemon

end Enuwatch

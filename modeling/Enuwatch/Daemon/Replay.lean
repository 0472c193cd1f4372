import Enuwatch.Daemon.Publication

/-!
# Replaying messages

What a sequence of messages is for can be said without a daemon: each of them makes a directory
or puts a file at its path, one after the other (`Remote.replay`).

A daemon that serves one connection does just that. Between messages the file system shows what
the replay of the calls made so far gives; during a transfer it shows one file more, under the
temporary name (`Mirrors`). Every move keeps this (`Mirrors.move`), so it holds in every state of
a run in which one connection was accepted (`reachable_replayed`).
-/

set_option autoImplicit false

namespace Enuwatch.Daemon

open Enuwatch.Lib Enuwatch.Net

/-- The remote tree: what each location shows. -/
abbrev Remote := Loc → Option Fs.Seen

namespace Remote

/-- The root is a directory. -/
def IsDir (t : Remote) (loc : Loc) : Prop := loc = [] ∨ t loc = some .dir

instance (t : Remote) (loc : Loc) : Decidable (t.IsDir loc) := inferInstanceAs (Decidable (_ ∨ _))

/-- What a message does to the tree; other calls do nothing to it. -/
def apply (cwd : Loc) (t : Remote) : FsOp → Option Remote
  | .mkdir path _ =>
      let loc := locate cwd path
      if loc ≠ [] ∧ t loc = none ∧ t.IsDir loc.dropLast then
        some (Function.update t loc (some .dir))
      else none
  | .rename path contents =>
      let loc := locate cwd path
      if loc ≠ [] ∧ t loc ≠ some .dir ∧ t.IsDir loc.dropLast then
        some (Function.update t loc (some (.file contents)))
      else none
  | _ => some t

/-- Calls one after the other. -/
def replay (cwd : Loc) : Remote → List FsOp → Option Remote
  | t, [] => some t
  | t, op :: ops => (t.apply cwd op).bind fun t => replay cwd t ops

theorem replay_append (cwd : Loc) (t : Remote) (first second : List FsOp) :
    replay cwd t (first ++ second) = (replay cwd t first).bind fun t => replay cwd t second := by
  induction first generalizing t with
  | nil => rfl
  | cons op first ih =>
      simp only [List.cons_append, replay, Option.bind_assoc]
      exact congrArg _ (funext ih)

/-- Only the calls that act on the path of a message count. -/
theorem replay_filter (cwd : Loc) (t : Remote) (ops : List FsOp) :
    replay cwd t (ops.filter FsOp.isFinal) = replay cwd t ops := by
  induction ops generalizing t with
  | nil => rfl
  | cons op ops ih =>
      cases op with
      | mkdir path mode =>
          rw [List.filter_cons_of_pos rfl]
          simp only [replay, ih]
      | rename path contents =>
          rw [List.filter_cons_of_pos rfl]
          simp only [replay, ih]
      | _ =>
          rw [List.filter_cons_of_neg (by simp [FsOp.isFinal])]
          simp [replay, apply, ih]

end Remote

theorem isDir_iff_seenAt {fs : Fs} {loc : Loc} :
    fs.isDir loc = true ↔ Remote.IsDir fs.seenAt loc := by
  rw [Fs.isDir_iff, Remote.IsDir, Fs.seenAt_eq_dir]

/-- The calls that succeeded. -/
def doneOps (calls : List Call) : List FsOp := (calls.filter (·.ok)).map (·.op)

theorem doneOps_append (first second : List Call) :
    doneOps (first ++ second) = doneOps first ++ doneOps second := by
  simp [doneOps]

/-- The tree that the calls made so far give. -/
def replayed (fs₀ : Fs) (w : World) : Option Remote :=
  Remote.replay fs₀.cwd fs₀.seenAt (doneOps w.calls)

/-- During a transfer the file system shows the tree `t` and the temporary file. -/
structure Transfers (fs₀ : Fs) (t : Remote) (st : ConnectionState) (w : World) (ino : ℕ) :
    Prop where
  holding : Holding fs₀.cwd w st ino
  free : t (locate fs₀.cwd st.anonPath) = none
  rest : ∀ loc, loc ≠ locate fs₀.cwd st.anonPath → w.fs.seenAt loc = t loc

/-- The file system shows what the replay of the calls gives. -/
structure Mirrors (fs₀ : Fs) (st : ConnectionState) (w : World) : Prop where
  cwd : w.fs.cwd = fs₀.cwd
  tree : ∃ t, replayed fs₀ w = some t ∧ (st.kind ≠ .receiving → ∀ loc, w.fs.seenAt loc = t loc) ∧
    (st.kind = .receiving → ∃ ino, Transfers fs₀ t st w ino)

section Moves

variable {fs₀ : Fs} {st : ConnectionState} {w : World} {k : ℕ}

theorem Mirrors.locate_eq (mirrors : Mirrors fs₀ st w) (path : Bytes) :
    w.locate path = locate fs₀.cwd path := by
  rw [World.locate, mirrors.cwd]

theorem Mirrors.read (mirrors : Mirrors fs₀ st w) {block : Bytes} (unused : List SysRead)
    (fits : block.length ≤ st.goal - st.progress) :
    Mirrors fs₀ (st.stored (targetOf st.kind) block)
      (w.receive k block unused ((targetOf st.kind).storeFs block st w.fs)) := by
  obtain ⟨cwd, t, replay, idle, busy⟩ := mirrors
  by_cases receiving : st.kind = .receiving
  · obtain ⟨ino, holding, free, rest⟩ := busy receiving
    have target : targetOf st.kind = .map := by rw [receiving]; rfl
    have entries : (w.fs.store st.anonBuf st.progress block).entries = w.fs.entries := by simp
    rw [target]
    refine ⟨by simpa [Target.storeFs] using cwd, t, replay, fun other => absurd receiving other,
      fun _ => ⟨ino, ⟨holding.file.congr entries, holding.temp, holding.mapped, fun empty =>
        (holding.store fits (.inr empty)).trans (holding.empty empty)⟩, free, ?_⟩⟩
    intro loc other
    refine (Fs.seenAt_congr (congrFun entries loc) fun i here => ?_).trans (rest loc other)
    refine holding.store fits (.inl ?_)
    rintro rfl
    exact other (holding.file.only loc here)
  · rw [targetOf_eq_buf receiving]
    exact ⟨cwd, t, replay, fun _ => idle receiving, fun bad => absurd bad receiving⟩

theorem replay_of_replayed {t : Remote} {calls : List Call} {w' : World}
    (replay : replayed fs₀ w = some t) (longer : w'.calls = w.calls ++ calls) :
    replayed fs₀ w' = Remote.replay fs₀.cwd t (doneOps calls) := by
  rw [replayed, longer, doneOps_append, Remote.replay_append]
  exact congrArg (fun r => Option.bind r _) replay

theorem Mirrors.opened (mirrors : Mirrors fs₀ st w) (idle : st.kind ≠ .receiving) (temp : Bytes)
    (free : w.fs.CanCreate (w.locate temp)) :
    Mirrors fs₀ (st.opened w.table.next w.fs.nextIno temp)
      (w.mmap k st.msg.seq temp st.msg.fsize.toNat true) := by
  have here := mirrors.locate_eq temp
  obtain ⟨cwd, t, replay, shown, -⟩ := mirrors
  have entries : (w.mmap k st.msg.seq temp st.msg.fsize.toNat true).fs.entries =
      (w.fs.create (w.locate temp)).entries := by simp
  refine ⟨by simpa using cwd, t, ?_, fun other => absurd rfl other, fun _ =>
    ⟨w.fs.nextIno, ⟨?_, ?_, ?_, ?_⟩, ?_, ?_⟩⟩
  · have calls : (w.mmap k st.msg.seq temp st.msg.fsize.toNat true).calls = w.calls ++
        ([{ conn := k, seq := st.msg.seq, op := .mkstemp, temp, ok := true },
          { conn := k, seq := st.msg.seq, op := .ftruncate st.msg.fsize.toNat, temp,
            ok := true }] ++
          if 0 < st.msg.fsize.toNat then
            [{ conn := k, seq := st.msg.seq, op := .mmap st.msg.fsize.toNat, temp, ok := true }]
          else []) := by
      simp [List.append_assoc]
    rw [replay_of_replayed replay calls]
    split <;> rfl
  · rw [show (st.opened w.table.next w.fs.nextIno temp).anonPath = temp from rfl, ← here]
    exact (Fs.Private.created w.fs (w.locate temp)).congr entries
  · refine (tempLoc_mkstemp w.calls k st.msg.seq temp fs₀.cwd).mono ?_
    intro call member
    rw [World.mmap_calls, World.ftruncate_calls]
    exact List.mem_append_left _ (List.mem_append_left _ member)
  · intro positive
    have counted : 0 < st.msg.fsize.toNat := positive
    exact if_pos (UInt64.lt_iff_toNat_lt.2 (by simpa using counted))
  · intro empty
    have size : st.msg.fsize.toNat = 0 := empty
    simp [Fs.truncate, Fs.create, resize_nil, size]
  · rw [← shown idle, Fs.seenAt_eq_none]
    exact here ▸ free.2.1
  · intro loc other
    have apart : loc ≠ w.locate temp := fun same => other (same.trans here)
    rw [← shown idle]
    refine Fs.seenAt_congr ?_ fun ino found => ?_
    · rw [entries]
      simp [Fs.create, apart]
    · have old := w.fs.allocated loc ino found
      simp [Fs.truncate, Fs.create, old.ne]

theorem Mirrors.made (mirrors : Mirrors fs₀ st w) (idle : st.kind ≠ .receiving) {seq : UInt32}
    {path : Bytes} {mode : ℕ} (free : w.fs.CanCreate (w.locate path)) (fd : ℤ) :
    Mirrors fs₀ st.parsed.idle ((w.mkdir k seq path mode true).close fd) := by
  have here := mirrors.locate_eq path
  obtain ⟨cwd, t, replay, shown, -⟩ := mirrors
  have same : w.fs.seenAt = t := funext (shown idle)
  refine ⟨by simpa using cwd, Function.update t (locate fs₀.cwd path) (some .dir), ?_,
    fun _ loc => ?_, nofun⟩
  · have calls : ((w.mkdir k seq path mode true).close fd).calls =
        w.calls ++ [{ conn := k, seq, op := .mkdir path mode, ok := true }] := by simp
    obtain ⟨top, vacant, parent⟩ := here ▸ free
    rw [replay_of_replayed replay calls]
    have can : locate fs₀.cwd path ≠ [] ∧ t (locate fs₀.cwd path) = none ∧
        t.IsDir (locate fs₀.cwd path).dropLast :=
      ⟨top, by rw [← same, Fs.seenAt_eq_none]; exact vacant,
        by rw [← same]; exact isDir_iff_seenAt.1 parent⟩
    simp [doneOps, Remote.replay, Remote.apply, can]
  · rw [← same, ← here]
    by_cases there : loc = w.locate path
    · subst there
      simp [Fs.seenAt, Fs.mkdir]
    · rw [Function.update_of_ne there]
      exact Fs.seenAt_congr (by simp [Fs.mkdir, there]) fun _ _ => by simp

/-- What the `rename` that ends a transfer leaves to be seen. -/
theorem Transfers.renamed {t : Remote} {ino : ℕ} {contents : Bytes}
    (transfers : Transfers fs₀ t st w ino) (data : w.fs.data ino = contents) (dst loc : Loc) :
    (w.fs.rename (locate fs₀.cwd st.anonPath) dst).seenAt loc =
      Function.update t dst (some (.file contents)) loc := by
  obtain ⟨holding, free, rest⟩ := transfers
  have entry := holding.file.entry
  by_cases apart : locate fs₀.cwd st.anonPath = dst
  · subst apart
    rw [Fs.rename, if_pos rfl]
    by_cases there : loc = locate fs₀.cwd st.anonPath
    · subst there
      simp [Fs.seenAt, entry, data]
    · rw [Function.update_of_ne there, rest loc there]
  · by_cases there : loc = dst
    · subst there
      simp [Fs.rename, Fs.seenAt, apart, Ne.symm apart, entry, data]
    · rw [Function.update_of_ne there]
      by_cases gone : loc = locate fs₀.cwd st.anonPath
      · subst gone
        simp [Fs.rename, Fs.seenAt, apart, free]
      · rw [← rest loc gone]
        exact Fs.seenAt_congr (by simp [Fs.rename, apart, there, gone]) fun _ _ => by simp

/-- A `rename` that the kernel can perform is one that the tree allows. -/
theorem Transfers.allowed {t : Remote} {ino : ℕ} {dst : Loc}
    (transfers : Transfers fs₀ t st w ino)
    (can : w.fs.CanRename (locate fs₀.cwd st.anonPath) dst) :
    dst ≠ [] ∧ t dst ≠ some .dir ∧ t.IsDir dst.dropLast := by
  obtain ⟨holding, free, rest⟩ := transfers
  obtain ⟨-, top, parent, target⟩ := can
  have elsewhere : ∀ loc, w.fs.seenAt loc = some .dir → t loc = some .dir := by
    intro loc directory
    rw [← rest loc ?_]
    · exact directory
    · rintro rfl
      simp [Fs.seenAt, holding.file.entry] at directory
  refine ⟨top, ?_, (isDir_iff_seenAt.1 parent).imp_right (elsewhere _)⟩
  by_cases own : dst = locate fs₀.cwd st.anonPath
  · rw [own, free]
    simp
  · rw [← rest dst own]
    intro directory
    obtain ⟨mode, found⟩ := Fs.seenAt_eq_dir.1 directory
    rcases target with vacant | file
    · simp [found] at vacant
    · simp [Fs.fileAt, found] at file

theorem Mirrors.published (mirrors : Mirrors fs₀ st w) {p : Phase} (tracks : Tracks w k st p)
    (kind : st.kind = .receiving) (full : st.progress = st.goal)
    (can : w.fs.CanRename (w.locate st.anonPath) (w.locate st.path)) (fd : ℤ) :
    Mirrors fs₀ st.idle
      (({ w.rename k st.seq (st.payload w.fs) st.anonPath st.path true with
          anonFiles := w.anonFiles.erase st.anonPath } : World).close fd) := by
  have there := mirrors.locate_eq
  obtain ⟨cwd, t, replay, -, busy⟩ := mirrors
  obtain ⟨ino, transfers⟩ := busy kind
  rw [there, there] at can
  have data := transfers.holding.contents tracks kind full
  refine ⟨by simpa using cwd,
    Function.update t (locate fs₀.cwd st.path) (some (.file (st.payload w.fs))), ?_,
    fun _ loc => ?_, nofun⟩
  · have calls : (({ w.rename k st.seq (st.payload w.fs) st.anonPath st.path true with
          anonFiles := w.anonFiles.erase st.anonPath } : World).close fd).calls =
        w.calls ++ [{ conn := k, seq := st.seq, op := .rename st.path (st.payload w.fs),
                      temp := st.anonPath, ok := true,
                      source := w.fs.fileAt (w.locate st.anonPath) }] := by simp
    rw [replay_of_replayed replay calls]
    simp [doneOps, Remote.replay, Remote.apply, transfers.allowed can]
  · rw [World.close_fs]
    simp only [World.rename_fs, if_true, there]
    exact transfers.renamed data _ loc

/-- **Every move keeps the file system and the replay together.** -/
theorem Mirrors.move {st' : ConnectionState} {w' : World} (mirrors : Mirrors fs₀ st w) {p : Phase}
    (tracks : Tracks w k st p) (move : Move k (st, w) (st', w')) : Mirrors fs₀ st' w' := by
  cases move with
  | arm kind =>
      obtain ⟨cwd, t, replay, idle, -⟩ := mirrors
      exact ⟨cwd, t, replay, fun _ => idle (by simp [kind]), nofun⟩
  | read block unused kind fits later => exact mirrors.read unused fits
  | header kind full =>
      obtain ⟨cwd, t, replay, idle, -⟩ := mirrors
      exact ⟨cwd, t, replay, fun _ => idle (by simp [kind]), nofun⟩
  | opened temp kind full regular free => exact mirrors.opened (by simp [kind]) temp free
  | made kind full other free => exact mirrors.made (by simp [kind]) free _
  | published kind full can => exact mirrors.published tracks kind full can _

theorem Chain.mirrors {s s' : ConnectionState × World} (chain : Chain k s s')
    (tracked : ∃ p, Tracks s.2 k s.1 p) (mirrors : Mirrors fs₀ s.1 s.2) :
    Mirrors fs₀ s'.1 s'.2 := by
  induction chain with
  | refl => exact mirrors
  | tail chain move ih =>
      obtain ⟨p, tracks⟩ := Tracks.chain chain tracked
      exact ih.move tracks move

theorem Mirrors.of_fields {w' : World} (mirrors : Mirrors fs₀ st w) (fs : w'.fs = w.fs)
    (calls : w'.calls = w.calls) : Mirrors fs₀ st w' := by
  obtain ⟨cwd, t, replay, idle, busy⟩ := mirrors
  refine ⟨by rwa [fs], t, by rwa [replayed, calls], by rwa [fs], fun receiving => ?_⟩
  obtain ⟨ino, holding, free, rest⟩ := busy receiving
  refine ⟨ino, ⟨?_, ?_, holding.mapped, ?_⟩, free, ?_⟩
  · rw [fs]
    exact holding.file
  · rw [calls]
    exact holding.temp
  · rw [fs]
    exact holding.empty
  · rw [fs]
    exact rest

end Moves

/-! ## Every run with one connection -/

/-- Some contents are being received on connection 0. -/
def Transferring (w : World) : Prop :=
  ∃ hdr dest got, phaseAfter (w.received 0) = .payload hdr dest got

/-- The file system shows the replay of the calls. -/
def Shown (fs₀ : Fs) (w : World) : Prop :=
  w.fs.cwd = fs₀.cwd ∧ ∃ t, replayed fs₀ w = some t ∧ ∀ loc, w.fs.seenAt loc = t loc

/-- What holds while one connection is served, and after it. -/
structure Replayed (fs₀ : Fs) (d : Server) : Prop where
  live : ∀ x st, d.states.lookup x = some st → d.world.table.get x = some (.conn 0) →
    Mirrors fs₀ st d.world
  still : ¬ Transferring d.world → Shown fs₀ d.world

section Events

variable {fs₀ : Fs} {d d' : Server} {w : World} {st : ConnectionState}

theorem Shown.of_fields {w' : World} (shown : Shown fs₀ w) (fs : w'.fs = w.fs)
    (calls : w'.calls = w.calls) : Shown fs₀ w' := by
  obtain ⟨cwd, t, replay, same⟩ := shown
  exact ⟨by rwa [fs], t, by rwa [replayed, calls], by rwa [fs]⟩

theorem Shown.mirrors (shown : Shown fs₀ w) (idle : st.kind ≠ .receiving) : Mirrors fs₀ st w := by
  obtain ⟨cwd, t, replay, same⟩ := shown
  exact ⟨cwd, t, replay, fun _ => same, fun receiving => absurd receiving idle⟩

/-- A connection that waits for a header or a path. -/
theorem Mirrors.shown (mirrors : Mirrors fs₀ st w) (idle : st.kind ≠ .receiving) :
    Shown fs₀ w := by
  obtain ⟨cwd, t, replay, same, -⟩ := mirrors
  exact ⟨cwd, t, replay, same idle⟩

/-- Nothing but descriptors, states that are gone and the loop's own variables changed. -/
theorem Replayed.of_fields (replayed : Replayed fs₀ d) (fs : d'.world.fs = d.world.fs)
    (calls : d'.world.calls = d.world.calls) (received : d'.world.received = d.world.received)
    (states : ∀ x st, d'.states.lookup x = some st → d.states.lookup x = some st)
    (table : ∀ x k, d'.world.table.get x = some (.conn k) → d.world.table.get x = some (.conn k)) :
    Replayed fs₀ d' := by
  constructor
  · intro x st found conn
    exact (replayed.live x st (states x st found) (table x 0 conn)).of_fields fs calls
  · intro still
    refine (replayed.still ?_).of_fields fs calls
    rwa [Transferring, ← received]

/-- A wake-up of the one connection. -/
theorem Replayed.woken (replayed : Replayed fs₀ d)
    (coherent : Coherent d.numbers d.socketFds d.states d.world) {ans : Answers} {pfd : PollFd}
    (here : d.fds[d.idx]? = some pfd) (other : pfd.fd ∉ d.socketFds)
    (conn : d.world.table.get pfd.fd = some (.conn 0))
    (chain : Chain 0 (d.stateOf pfd.fd, d.answered ans) (st, w)) (rest : st.AtRest) :
    Replayed fs₀ (d.wake pfd.fd st w) := by
  have found := coherent.stateOf here other
  have tracked := (coherent.answered ans).tracks _ _ 0 found conn
  have mirrors := Chain.mirrors chain tracked ((replayed.live _ _ found conn).of_fields rfl rfl)
  constructor
  · intro y sty this conny
    rcases lookup_insert_cases this with ⟨rfl, rfl⟩ | ⟨different, this⟩
    · exact mirrors
    · exact absurd (coherent.conns y pfd.fd 0 (chain.frame.conns y 0 conny) conn) different
  · intro still
    refine mirrors.shown fun receiving => still ?_
    obtain ⟨p, tracks⟩ := Tracks.chain chain tracked
    have phase := (tracks.stands.of_need (tracks.state.need_of_atRest rest)).1
    have state := tracks.state
    cases state with
    | payload => exact ⟨_, _, _, phase⟩
    | connected kind => cases receiving.symm.trans kind
    | header kind => cases receiving.symm.trans kind
    | path kind => cases receiving.symm.trans kind

theorem Replayed.event {input : Input} (running : d.status = .running) (event : Event d input d')
    (invariant : Invariant d) (before : d.world.accepted ≤ 1 → Replayed fs₀ d)
    (still : d'.status = .running) (one : d'.world.accepted ≤ 1) : Replayed fs₀ d' := by
  have coherent := invariant.coherent (by simp [running]) (invariant.running running)
  cases event with
  | polled length allowed =>
      exact (before one).of_fields rfl rfl rfl (fun _ _ => id) fun _ _ => id
  | interrupted => exact before one
  | pollFailed => simp at still
  | @hungUp ans pfd here flagged =>
      have closes := hangUp_closes d pfd.fd
      rw [closes.accepted] at one
      exact (before one).of_fields closes.fs closes.calls closes.received
        (fun _ _ => lookup_of_hangUp) fun _ _ => get_of_hangUp
  | skipped here => exact (before one).of_fields rfl rfl rfl (fun _ _ => id) fun _ _ => id
  | refused here listener => simp at still
  | @admitted ans pfd port here listener listening room =>
      have none : d.world.accepted = 0 := by
        have : d.world.accepted + 1 ≤ 1 := one
        omega
      have silent := (coherent.unborn 0 (by omega)).1
      have shown := ((before (by omega)).still (by
        rintro ⟨hdr, dest, got, phase⟩
        rw [silent] at phase
        cases phase))
      have shown' : Shown fs₀ (d.welcome pfd.fd).world := shown.of_fields rfl rfl
      obtain ⟨client, sock, blank, -⟩ := coherent.blank
      refine ⟨fun x st found conn => ?_, fun _ => shown'⟩
      rcases lookup_insert_cases found with ⟨rfl, rfl⟩ | ⟨different, old⟩
      · exact shown'.mirrors (by simp [blank])
      · have before : d.world.table.get x = some (.conn 0) := by
          have opened : (d.world.table.alloc (.conn d.world.accepted)).get x = some (.conn 0) :=
            conn
          rwa [Slots.get_alloc, if_neg different] at opened
        have := coherent.accepted x 0 before
        omega
  | overflowed here listener listening full => simp [Server.overflow] at still
  | @woken ans pfd k st w here other conn chain rest =>
      have accepted : w.accepted = d.world.accepted := chain.frame.accepted
      have few : d.world.accepted ≤ 1 := by
        have : w.accepted ≤ 1 := one
        omega
      obtain rfl : k = 0 := by
        have := coherent.accepted _ _ conn
        omega
      exact (before few).woken coherent here other conn chain rest
  | @returned ans pfd k st w here other conn cut => simp [Server.returnFalse] at still
  | failed here other conn cut => simp at still
  | dangling here other gone => simp [Server.returnFalse] at still

end Events

/-- **A daemon that serves one connection replays its messages.** Whenever it is between
messages, the file system shows what they give one after the other. -/
theorem reachable_replayed {inherited : List Bool} {fs : Fs} {dmsg : DaemonInitMessage} {d : Server}
    (reachable : Reachable step (start inherited fs dmsg) d) (running : d.status = .running)
    (one : d.world.accepted ≤ 1) : Replayed fs d := by
  have both : Invariant d ∧
      (d.status = .running → d.world.accepted ≤ 1 → Replayed fs d) := by
    refine Server.invariant reachable
      (I := fun d => Invariant d ∧ (d.status = .running → d.world.accepted ≤ 1 → Replayed fs d))
      ⟨reachable_invariant (.refl _), fun _ _ => ?_⟩ ?_
    · exact ⟨by simp [start], fun _ => ⟨rfl, fs.seenAt, rfl, fun _ => rfl⟩⟩
    · rintro d input d' running event ⟨invariant, before⟩
      exact ⟨invariant.event running event, Replayed.event running event invariant (before running)⟩
  exact both.2 running one

end Enuwatch.Daemon

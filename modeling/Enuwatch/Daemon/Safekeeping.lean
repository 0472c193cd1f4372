import Enuwatch.Daemon.TempFiles

/-!
# Nothing that was there is deleted

The daemon renames, unlinks and writes through a mapping, and the paths it acts on are whatever its
clients send: absolute ones, ones that climb out of the directory, or the names of other transfers.
It still deletes nothing that it did not make itself, because it only ever takes away names that
`mkstemp` has found to be free, and only ever writes to inodes that `mkstemp` has made.

Whatever arrives, and however the daemon ends, every directory it was started with is still there,
and so is every file, with the contents it had or replaced by a file that the daemon has made
(`nothing_deleted`).
-/

set_option autoImplicit false

namespace Enuwatch

open Enuwatch.Lib

namespace Fs

/-- What was there is still there; an inode that was in use has kept its bytes, and a name refers
to a new inode or to the one it had. -/
structure Kept (fs₀ fs : Fs) : Prop where
  cwd : fs.cwd = fs₀.cwd
  nextIno : fs₀.nextIno ≤ fs.nextIno
  dirs : ∀ loc mode, fs₀.entries loc = some (.dir mode) → fs.entries loc = some (.dir mode)
  files : ∀ loc ino, fs₀.entries loc = some (.file ino) → ∃ ino', fs.entries loc = some (.file ino')
  origin : ∀ loc ino, fs.entries loc = some (.file ino) →
    fs₀.nextIno ≤ ino ∨ fs₀.entries loc = some (.file ino)
  data : ∀ ino < fs₀.nextIno, fs.data ino = fs₀.data ino

namespace Kept

variable {fs₀ fs : Fs} {loc src dst : Loc}

theorem refl (fs : Fs) : Kept fs fs :=
  ⟨rfl, le_rfl, fun _ _ => id, fun _ ino here => ⟨ino, here⟩, fun _ _ => .inr, fun _ _ => rfl⟩

/-- A location that is free now was free before. -/
theorem free (kept : Kept fs₀ fs) (free : fs.entries loc = none) : fs₀.entries loc = none := by
  cases before : fs₀.entries loc with
  | none => rfl
  | some entry =>
      cases entry with
      | dir mode => simp [kept.dirs loc mode before] at free
      | file ino =>
          obtain ⟨ino', here⟩ := kept.files loc ino before
          simp [here] at free

/-- A new name in a free place. -/
theorem put (kept : Kept fs₀ fs) {entry : Entry} (vacant : fs.entries loc = none) {fs' : Fs}
    (cwd : fs'.cwd = fs.cwd) (nextIno : fs.nextIno ≤ fs'.nextIno)
    (entries : fs'.entries = Function.update fs.entries loc (some entry))
    (data : ∀ ino < fs.nextIno, fs'.data ino = fs.data ino)
    (made : ∀ ino, entry = .file ino → fs₀.nextIno ≤ ino) : Kept fs₀ fs' := by
  have before := kept.free vacant
  have apart : ∀ {other e}, fs₀.entries other = some e → other ≠ loc := by
    rintro other e here rfl
    simp [before] at here
  refine ⟨cwd.trans kept.cwd, kept.nextIno.trans nextIno, ?_, ?_, ?_, ?_⟩
  · intro other mode here
    rw [entries, Function.update_of_ne (apart here)]
    exact kept.dirs other mode here
  · intro other ino here
    rw [entries, Function.update_of_ne (apart here)]
    exact kept.files other ino here
  · intro other ino here
    rw [entries] at here
    by_cases same : other = loc
    · subst same
      rw [Function.update_self] at here
      exact .inl (made ino (Option.some.inj here))
    · rw [Function.update_of_ne same] at here
      exact kept.origin other ino here
  · intro ino old
    rw [data ino (old.trans_le kept.nextIno)]
    exact kept.data ino old

theorem mkdir (kept : Kept fs₀ fs) (can : fs.CanCreate loc) (mode : ℕ) :
    Kept fs₀ (fs.mkdir loc mode) :=
  kept.put can.2.1 rfl le_rfl rfl (fun _ _ => rfl) (by simp)

theorem create (kept : Kept fs₀ fs) (can : fs.CanCreate loc) : Kept fs₀ (fs.create loc) := by
  refine kept.put can.2.1 rfl (Nat.le_succ _) rfl (fun ino old => ?_) ?_
  · exact Function.update_of_ne old.ne _ _
  · rintro ino ⟨⟩
    exact kept.nextIno

/-- Bytes of a new inode. -/
theorem write (kept : Kept fs₀ fs) {ino : ℕ} (made : fs₀.nextIno ≤ ino) {fs' : Fs}
    (cwd : fs'.cwd = fs.cwd) (nextIno : fs'.nextIno = fs.nextIno)
    (entries : fs'.entries = fs.entries) (data : ∀ other ≠ ino, fs'.data other = fs.data other) :
    Kept fs₀ fs' where
  cwd := cwd.trans kept.cwd
  nextIno := nextIno ▸ kept.nextIno
  dirs := entries ▸ kept.dirs
  files := entries ▸ kept.files
  origin := entries ▸ kept.origin
  data other old := by
    rw [data other (old.trans_le made).ne]
    exact kept.data other old

theorem truncate (kept : Kept fs₀ fs) {ino : ℕ} (made : fs₀.nextIno ≤ ino) (size : ℕ) :
    Kept fs₀ (fs.truncate ino size) :=
  kept.write made rfl rfl rfl fun _ other => Function.update_of_ne other _ _

theorem store (kept : Kept fs₀ fs) {ino : Option ℕ} (made : ∀ i, ino = some i → fs₀.nextIno ≤ i)
    (offset : ℕ) (block : Bytes) : Kept fs₀ (fs.store ino offset block) := by
  cases ino with
  | none => exact kept
  | some ino => exact kept.write (made ino rfl) rfl rfl rfl fun _ other => Function.update_of_ne other _ _

/-- A name that is taken away is none of those that were there. -/
theorem rename (kept : Kept fs₀ fs) (can : fs.CanRename src dst) (made : fs₀.entries src = none) :
    Kept fs₀ (fs.rename src dst) := by
  obtain ⟨source, -, -, target⟩ := can
  obtain ⟨ino, here⟩ : ∃ ino, fs.entries src = some (.file ino) := by
    unfold fileAt at source
    split at source
    · rename_i ino here
      exact ⟨ino, here⟩
    · cases source
  have fresh : fs₀.nextIno ≤ ino := (kept.origin src ino here).resolve_right (by simp [made])
  by_cases same : src = dst
  · rw [Fs.rename, if_pos same]
    exact kept
  have entries : ∀ loc, (fs.rename src dst).entries loc =
      if loc = src then none else if loc = dst then some (.file ino) else fs.entries loc := by
    intro loc
    rw [Fs.rename, if_neg same]
    by_cases gone : loc = src
    · simp [gone]
    · by_cases new : loc = dst
      · subst new
        simp [gone, here]
      · simp [gone, new]
  have apart : ∀ {loc e}, fs₀.entries loc = some e → loc ≠ src := by
    rintro loc e before rfl
    simp [made] at before
  refine ⟨by simpa using kept.cwd, by simpa using kept.nextIno, ?_, ?_, ?_, by simpa using kept.data⟩
  · intro loc mode before
    have directory := kept.dirs loc mode before
    have other : loc ≠ dst := by
      rintro rfl
      obtain vacant | file := target
      · simp [directory] at vacant
      · simp [fileAt, directory] at file
    rw [entries, if_neg (apart before), if_neg other, directory]
  · intro loc old before
    rw [entries, if_neg (apart before)]
    split
    · exact ⟨ino, rfl⟩
    · exact kept.files loc old before
  · intro loc i after
    rw [entries] at after
    split_ifs at after with gone new
    · cases after
      exact .inl fresh
    · exact kept.origin loc i after

theorem unlink (kept : Kept fs₀ fs) (made : fs₀.entries loc = none) : Kept fs₀ (fs.unlink loc) := by
  unfold Fs.unlink
  split
  · have apart : ∀ {other e}, fs₀.entries other = some e → other ≠ loc := by
      rintro other e before rfl
      simp [made] at before
    refine ⟨kept.cwd, kept.nextIno, ?_, ?_, ?_, kept.data⟩
    · intro other mode before
      simpa [apart before] using kept.dirs other mode before
    · intro other ino before
      simpa [apart before] using kept.files other ino before
    · intro other ino after
      by_cases gone : other = loc
      · simp [gone] at after
      · exact kept.origin other ino (by simpa [gone] using after)
  · exact kept

/-- A file that was there is there with its contents, or a new one is in its place. -/
theorem fileAt (kept : Kept fs₀ fs) {contents : Bytes} (before : fs₀.fileAt loc = some contents) :
    fs.fileAt loc = some contents ∨
      ∃ ino, fs₀.nextIno ≤ ino ∧ fs.entries loc = some (.file ino) := by
  unfold Fs.fileAt at before ⊢
  split at before
  · rename_i ino here
    cases before
    obtain ⟨ino', after⟩ := kept.files loc ino here
    obtain new | same := kept.origin loc ino' after
    · exact .inr ⟨ino', new, after⟩
    · rw [here] at same
      cases same
      rw [after]
      exact .inl (congrArg some (kept.data ino (fs₀.allocated loc ino here)))
  · cases before

end Kept

end Fs

namespace Daemon

open Enuwatch.Net

/-! ## The moves of a connection -/

/-- The world has kept what was there, and `ANON_FILES` has only names of the daemon's own. -/
structure Keeping (fs₀ : Fs) (w : World) : Prop where
  kept : fs₀.Kept w.fs
  temps : ∀ temp ∈ w.anonFiles, fs₀.entries (locate fs₀.cwd temp) = none

/-- A transfer works on a name and an inode of the daemon's own. -/
structure Own (fs₀ : Fs) (st : ConnectionState) : Prop where
  path : st.kind = .receiving → fs₀.entries (locate fs₀.cwd st.anonPath) = none
  buf : ∀ ino, st.anonBuf = some ino → fs₀.nextIno ≤ ino

section Moves

variable {fs₀ : Fs} {k : ℕ} {st st' : ConnectionState} {w w' : World}

theorem Keeping.locate_eq (keeping : Keeping fs₀ w) (path : Bytes) :
    w.locate path = locate fs₀.cwd path := by
  rw [World.locate, keeping.kept.cwd]

theorem Keeping.of_fields (keeping : Keeping fs₀ w) (fs : w'.fs = w.fs)
    (anonFiles : w'.anonFiles = w.anonFiles) : Keeping fs₀ w' :=
  ⟨fs ▸ keeping.kept, anonFiles ▸ keeping.temps⟩

theorem Keeping.close (keeping : Keeping fs₀ w) (fd : ℤ) : Keeping fs₀ (w.close fd) :=
  keeping.of_fields (World.close_fs ..) (World.close_anonFiles ..)

theorem Keeping.read (keeping : Keeping fs₀ w) (own : Own fs₀ st) (target : Target) (block : Bytes)
    (unused : List SysRead) :
    Keeping fs₀ (w.receive k block unused (target.storeFs block st w.fs)) := by
  refine ⟨?_, keeping.temps⟩
  cases target with
  | buf => exact keeping.kept
  | map => exact keeping.kept.store own.buf _ _

theorem Keeping.created (keeping : Keeping fs₀ w) {temp : Bytes}
    (free : w.fs.CanCreate (w.locate temp)) (size : ℕ) :
    fs₀.Kept ((w.fs.create (w.locate temp)).truncate w.fs.nextIno size) :=
  (keeping.kept.create free).truncate keeping.kept.nextIno size

theorem Keeping.mmap (keeping : Keeping fs₀ w) {seq : UInt32} {temp : Bytes} {size : ℕ}
    {ok : Bool} (free : w.fs.CanCreate (w.locate temp)) :
    Keeping fs₀ (w.mmap k seq temp size ok) := by
  refine ⟨by simpa using keeping.created free size, fun other among => ?_⟩
  rw [World.mmap_anonFiles, List.mem_append, List.mem_singleton] at among
  obtain old | rfl := among
  · exact keeping.temps other old
  · rw [← keeping.locate_eq]
    exact keeping.kept.free free.2.1

/-- **Every move keeps what was there.** -/
theorem Keeping.move (keeping : Keeping fs₀ w) (own : Own fs₀ st)
    (move : Move k (st, w) (st', w')) : Keeping fs₀ w' ∧ Own fs₀ st' := by
  cases move with
  | arm => exact ⟨keeping, by simp, own.buf⟩
  | read block unused =>
      refine ⟨keeping.read own _ block unused, ?_⟩
      cases targetOf st.kind with
      | buf => exact ⟨own.path, own.buf⟩
      | map => exact ⟨own.path, own.buf⟩
  | header => exact ⟨keeping, by simp [ConnectionState.awaitPath], own.buf⟩
  | opened temp kind full regular free =>
      refine ⟨keeping.mmap free, fun _ => ?_, fun ino mapped => ?_⟩
      · rw [← keeping.locate_eq]
        exact keeping.kept.free free.2.1
      · simp only [ConnectionState.opened] at mapped
        split at mapped
        · cases mapped
          exact keeping.kept.nextIno
        · exact own.buf ino mapped
  | made kind full other free =>
      have made : Keeping fs₀ (w.mkdir k st.msg.seq st.parsed.path st.perms true) :=
        ⟨keeping.kept.mkdir free st.perms, keeping.temps⟩
      exact ⟨made.close _, by simp [ConnectionState.idle], own.buf⟩
  | published kind full can =>
      refine ⟨Keeping.close ⟨?_, fun temp among => ?_⟩ _, by simp [ConnectionState.idle], own.buf⟩
      · have made := own.path kind
        rw [← keeping.locate_eq] at made
        simpa using keeping.kept.rename can made
      · exact keeping.temps temp (List.mem_of_mem_erase among)

theorem Chain.keeping {s s' : ConnectionState × World} (chain : Chain k s s')
    (keeping : Keeping fs₀ s.2) (own : Own fs₀ s.1) : Keeping fs₀ s'.2 ∧ Own fs₀ s'.1 := by
  induction chain with
  | refl => exact ⟨keeping, own⟩
  | tail _ move ih => exact ih.1.move ih.2 move

theorem Keeping.abort {e : Exit} (keeping : Keeping fs₀ w) (own : Own fs₀ st)
    (abort : Abort k (st, w) e w') (answered : e ≠ .blocked) : Keeping fs₀ w' := by
  cases abort with
  | blocked => exact absurd rfl answered
  | read block unused => exact keeping.read own _ block unused
  | mkstemp => exact keeping.of_fields rfl rfl
  | ftruncate temp kind full regular free =>
      exact ⟨keeping.kept.create free, keeping.temps⟩
  | mmap temp kind full regular free => exact keeping.mmap free
  | mkdir => exact keeping.of_fields rfl rfl
  | rename => exact keeping.of_fields rfl rfl

theorem Cut.keeping {e : Exit} {s : ConnectionState × World} (cut : Cut k s e w')
    (keeping : Keeping fs₀ s.2) (own : Own fs₀ s.1) (answered : e ≠ .blocked) : Keeping fs₀ w' := by
  obtain ⟨⟨st, w⟩, chain, abort⟩ := cut
  obtain ⟨keeping, own⟩ := chain.keeping keeping own
  exact keeping.abort own abort answered

end Moves

/-! ## Every run -/

section Runs

variable {fs₀ : Fs} {d d' : Server} {w : World}

/-- The `atexit` handler takes away names of the daemon's own. -/
theorem Keeping.unlinkAnonFiles (keeping : Keeping fs₀ w) : fs₀.Kept (unlinkAnonFiles w).fs := by
  have rest : ∀ (temps : List Bytes) (w : World), fs₀.Kept w.fs →
      (∀ temp ∈ temps, fs₀.entries (locate fs₀.cwd temp) = none) →
      fs₀.Kept (temps.foldl (fun w path => w.commit (w.fs.unlink (w.locate path))) w).fs := by
    intro temps
    induction temps with
    | nil => exact fun _ kept _ => kept
    | cons temp temps ih =>
        intro w kept made
        obtain ⟨first, later⟩ := List.forall_mem_cons.1 made
        refine ih _ (kept.unlink ?_) later
        rw [World.locate, kept.cwd]
        exact first
  exact rest w.anonFiles w keeping.kept keeping.temps

theorem Keeping.returnFalse (keeping : Keeping fs₀ w) (d : Server) :
    fs₀.Kept (d.returnFalse w).world.fs := by
  have closes := destroyAll_closes d.states w
  exact (keeping.of_fields closes.fs closes.anonFiles).unlinkAnonFiles

/-- Everything is kept, and a running daemon works on names and inodes of its own. -/
structure Safe (fs₀ : Fs) (d : Server) : Prop where
  kept : fs₀.Kept d.world.fs
  keeping : d.status = .running → Keeping fs₀ d.world
  own : d.status = .running → ∀ x st, d.states.lookup x = some st → Own fs₀ st

theorem Safe.stateOf (safe : Safe fs₀ d) (running : d.status = .running) (x : ℕ) :
    Own fs₀ (d.stateOf x) :=
  Server.stateOf_of_forall ⟨by simp, by simp⟩ (safe.own running) x

/-- A daemon that goes on, with the states it had. -/
theorem Safe.of_fields (safe : Safe fs₀ d) (running : d.status = .running)
    (fs : d'.world.fs = d.world.fs) (anonFiles : d'.world.anonFiles = d.world.anonFiles)
    (own : ∀ x st, d'.states.lookup x = some st → Own fs₀ st) : Safe fs₀ d' :=
  have keeping := (safe.keeping running).of_fields fs anonFiles
  ⟨keeping.kept, fun _ => keeping, fun _ => own⟩

theorem Safe.event {input : Input} (running : d.status = .running) (event : Event d input d')
    (safe : Safe fs₀ d) : Safe fs₀ d' := by
  have keeping := safe.keeping running
  have others := safe.own running
  have answered (ans : Answers) : Keeping fs₀ (d.answered ans) := keeping.of_fields rfl rfl
  cases event with
  | polled | interrupted | skipped => exact safe.of_fields running rfl rfl others
  | pollFailed | refused => exact ⟨safe.kept, by simp, by simp⟩
  | @hungUp ans pfd here flagged =>
      have closes := hangUp_closes d pfd.fd
      exact safe.of_fields running closes.fs closes.anonFiles
        fun x st found => others x st (lookup_of_hangUp found)
  | admitted =>
      have own := safe.stateOf running d.world.table.next
      exact safe.of_fields running rfl rfl (forall_insert others ⟨own.path, own.buf⟩)
  | overflowed => exact ⟨safe.kept, by simp [Server.overflow], by simp [Server.overflow]⟩
  | @woken ans pfd k st w here other conn chain rest =>
      obtain ⟨keeping', own⟩ := chain.keeping (answered ans) (safe.stateOf running pfd.fd)
      exact ⟨keeping'.kept, fun _ => keeping', fun _ => forall_insert others own⟩
  | @returned ans pfd k st w here other conn cut =>
      have keeping' := cut.keeping (answered ans) (safe.stateOf running pfd.fd) (by simp)
      exact ⟨keeping'.returnFalse _, by simp [Server.returnFalse], by simp [Server.returnFalse]⟩
  | @failed ans pfd k w here other conn cut =>
      have keeping' := cut.keeping (answered ans) (safe.stateOf running pfd.fd) (by simp)
      exact ⟨keeping'.kept, by simp, by simp⟩
  | dangling =>
      exact ⟨keeping.returnFalse _, by simp [Server.returnFalse], by simp [Server.returnFalse]⟩

end Runs

/-- **Nothing that was there is deleted.** In every state of every run, the last one included,
a directory of the start is a directory with its mode, and a file of the start has its contents, or
a file on an inode that the daemon has made is in its place. -/
theorem nothing_deleted {inherited : List Bool} {fs : Fs} {dmsg : DaemonInitMessage} {d : Server}
    (reachable : Reachable step (start inherited fs dmsg) d) :
    (∀ loc mode, fs.entries loc = some (.dir mode) → d.world.fs.entries loc = some (.dir mode)) ∧
      ∀ loc contents, fs.fileAt loc = some contents → d.world.fs.fileAt loc = some contents ∨
        ∃ ino, fs.nextIno ≤ ino ∧ d.world.fs.entries loc = some (.file ino) := by
  have safe : Safe fs d := by
    refine Server.invariant reachable ⟨.refl fs, fun _ => ⟨.refl fs, ?_⟩, fun _ x st found => ?_⟩ ?_
    · simp [start]
    · simp [start] at found
    · exact fun d input d' running event safe => safe.event running event
  exact ⟨safe.kept.dirs, fun loc contents before => safe.kept.fileAt before⟩

/-- A file system with a directory `/tmp` and the files `/a` and `/e`. -/
def filledFs : Fs where
  cwd := []
  entries loc :=
    if loc = [[116, 109, 112]] then some (.dir 0)
    else if loc = [[97]] then some (.file 0)
    else if loc = [[101]] then some (.file 1)
    else none
  data ino := if ino = 0 then [9] else [8, 8]
  nextIno := 2
  allocated loc ino entry := by
    split_ifs at entry <;> cases entry <;> decide

/-- A file `a` arrives: it takes the place of the one that was there, and the directory `/tmp` and
the file `/e` are as they were. -/
theorem nothing_deleted_sample :
    ∃ d, run step (start [true, true, true] filledFs ⟨50000, 1⟩) sampleInputs = some d ∧
      d.world.fs.entries [[116, 109, 112]] = some (.dir 0) ∧
      d.world.fs.fileAt [[101]] = some [8, 8] ∧
      d.world.fs.fileAt [[97]] = some [1, 2] ∧
      ∃ ino, filledFs.nextIno ≤ ino ∧ d.world.fs.entries [[97]] = some (.file ino) := by
  have facts : ∀ d ∈ run step (start [true, true, true] filledFs ⟨50000, 1⟩) sampleInputs,
      d.world.fs.entries [[101]] = some (.file 1) ∧ d.world.fs.fileAt [[97]] = some [1, 2] := by
    decide +kernel
  obtain ⟨d, reaches⟩ := Option.isSome_iff_exists.1
    (show (run step (start [true, true, true] filledFs ⟨50000, 1⟩) sampleInputs).isSome by
      decide +kernel)
  obtain ⟨other, replaced⟩ := facts d reaches
  obtain ⟨dirs, files⟩ := nothing_deleted ⟨sampleInputs, reaches⟩
  refine ⟨d, reaches, dirs _ 0 rfl, ?_, replaced, ?_⟩
  · refine (files [[101]] [8, 8] rfl).resolve_right ?_
    rintro ⟨ino, made, here⟩
    rw [other] at here
    cases here
    exact absurd made (by decide)
  · refine (files [[97]] [9] rfl).resolve_left ?_
    rw [replaced]
    decide

end Daemon

end Enuwatch

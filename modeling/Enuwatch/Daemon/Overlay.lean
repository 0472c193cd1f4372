import Enuwatch.Daemon.Replay
import Enuwatch.Daemon.RoundTrip
import Enuwatch.Daemon.TempFiles

/-!
# Any number of connections

`reachable_replayed` says what a daemon leaves that serves one connection. With several, messages
are complete in an order of their own, and transfers of different connections overlap. What the
daemon is for can still be said without it: the messages act one after the other, each at the
moment it is complete and in one piece (`Remote.replay`), and beside the tree they give there are
only temporary files (`Overlays`).

Every move of every connection keeps this (`Overlays.move`), a chain of moves that is cut short
leaves it (`Overlays.abort`), and it holds in every state of every run in which no message names
the temporary path of another transfer (`reachable_layers`), however the daemon ends.
-/

set_option autoImplicit false

namespace Enuwatch

namespace Fs

/-- What the `rename` of a private file leaves to be seen: the file at its destination, nothing
under the temporary name, and the rest as it was. -/
theorem Private.seenAt_rename {fs : Fs} {src dst loc : Loc} {ino : ℕ} (file : fs.Private src ino)
    (elsewhere : loc ≠ src ∨ src = dst) :
    (fs.rename src dst).seenAt loc =
      if loc = dst then some (.file (fs.data ino)) else fs.seenAt loc := by
  have entry := file.entry
  by_cases apart : src = dst
  · subst apart
    rw [Fs.rename, if_pos rfl]
    split
    · rename_i there
      subst there
      simp [Fs.seenAt, entry]
    · rfl
  · have off : loc ≠ src := elsewhere.resolve_right apart
    split
    · rename_i there
      subst there
      simp [Fs.rename, Fs.seenAt, apart, Ne.symm apart, entry]
    · rename_i other
      exact Fs.seenAt_congr (by simp [Fs.rename, apart, other, off]) fun _ _ => by simp

end Fs

namespace Daemon

open Enuwatch.Lib Enuwatch.Net

namespace Remote

/-- Calls that act on no path leave the tree. -/
theorem replay_of_harmless {cwd : Loc} {t : Remote} {ops : List FsOp}
    (harmless : ∀ op ∈ ops, op.isFinal = false) : replay cwd t ops = some t := by
  rw [← replay_filter, List.filter_eq_nil_iff.2 fun op among => by simp [harmless op among]]
  rfl

end Remote

/-- The file system shows the tree `t` that the calls made so far give and, beside it, the
temporary files `temps`. -/
structure Overlays (fs₀ : Fs) (t : Remote) (temps : List Bytes) (w : World) : Prop where
  cwd : w.fs.cwd = fs₀.cwd
  replay : replayed fs₀ w = some t
  free : ∀ temp ∈ temps, t (locate fs₀.cwd temp) = none
  rest : ∀ loc, (∀ temp ∈ temps, locate fs₀.cwd temp ≠ loc) → w.fs.seenAt loc = t loc

section Worlds

variable {fs₀ : Fs} {t : Remote} {temps : List Bytes} {w w' : World} {k : ℕ} {seq : UInt32}

theorem Overlays.locate_eq (over_ : Overlays fs₀ t temps w) (path : Bytes) :
    w.locate path = locate fs₀.cwd path := by
  rw [World.locate, over_.cwd]

/-- Nothing that can be seen changed, except perhaps at temporary files. -/
theorem Overlays.grow (over_ : Overlays fs₀ t temps w) {temps' : List Bytes} {calls : List Call}
    (longer : w'.calls = w.calls ++ calls) (harmless : ∀ op ∈ doneOps calls, op.isFinal = false)
    (cwd : w'.fs.cwd = w.fs.cwd) (more : temps ⊆ temps')
    (free : ∀ temp ∈ temps', t (locate fs₀.cwd temp) = none)
    (rest : ∀ loc, (∀ temp ∈ temps', locate fs₀.cwd temp ≠ loc) →
      w'.fs.seenAt loc = w.fs.seenAt loc) : Overlays fs₀ t temps' w' := by
  refine ⟨cwd.trans over_.cwd, ?_, free, fun loc outside => ?_⟩
  · rw [replay_of_replayed over_.replay longer, Remote.replay_of_harmless harmless]
  · exact (rest loc outside).trans (over_.rest loc fun temp among => outside temp (more among))

/-- A call that failed, or one that can not be seen. -/
theorem Overlays.quiet (over_ : Overlays fs₀ t temps w) {calls : List Call}
    (longer : w'.calls = w.calls ++ calls) (harmless : ∀ op ∈ doneOps calls, op.isFinal = false)
    (fs : w'.fs = w.fs) : Overlays fs₀ t temps w' :=
  over_.grow longer harmless (by rw [fs]) (List.Subset.refl _) over_.free fun _ _ => by rw [fs]

theorem Overlays.of_fields (over_ : Overlays fs₀ t temps w) (fs : w'.fs = w.fs)
    (calls : w'.calls = w.calls) : Overlays fs₀ t temps w' := by
  have none_ : w'.calls = w.calls ++ [] := by rw [calls, List.append_nil]
  exact over_.quiet none_ (by simp [doneOps]) fs

/-- Where nothing is, the tree has nothing either. -/
theorem Overlays.vacant (over_ : Overlays fs₀ t w.anonFiles w) (ledger : Ledger w) {loc : Loc}
    (free : w.fs.entries loc = none) : t loc = none := by
  rw [← over_.rest loc fun temp among => ?_, Fs.seenAt_eq_none]
  · exact free
  · rw [← over_.locate_eq]
    exact ledger.locate_ne free among

/-- A directory is one of the tree. -/
theorem Overlays.isDir (over_ : Overlays fs₀ t w.anonFiles w) (ledger : Ledger w) {loc : Loc}
    (directory : w.fs.isDir loc = true) : t.IsDir loc := by
  refine (isDir_iff_seenAt.1 directory).imp_right fun shown => ?_
  rw [← over_.rest loc fun temp among => ?_]
  · exact shown
  · rintro rfl
    obtain ⟨ino, entry⟩ := ledger.kept temp among
    rw [over_.locate_eq] at entry
    simp [Fs.seenAt, entry] at shown

/-- A new temporary file. -/
theorem Overlays.create (over_ : Overlays fs₀ t w.anonFiles w) (ledger : Ledger w) {temp : Bytes}
    (vacant : w.fs.CanCreate (w.locate temp)) {calls : List Call}
    (longer : w'.calls = w.calls ++ calls) (harmless : ∀ op ∈ doneOps calls, op.isFinal = false)
    (cwd : w'.fs.cwd = w.fs.cwd)
    (entries : w'.fs.entries = (w.fs.create (w.locate temp)).entries)
    (data : ∀ ino, ino ≠ w.fs.nextIno → w'.fs.data ino = w.fs.data ino) :
    Overlays fs₀ t (w.anonFiles ++ [temp]) w' := by
  refine over_.grow longer harmless cwd (List.subset_append_left ..) ?_ fun loc outside => ?_
  · refine List.forall_mem_append.2 ⟨over_.free, fun new member => ?_⟩
    rw [List.mem_singleton.1 member, ← over_.locate_eq]
    exact over_.vacant ledger vacant.2.1
  · have apart : loc ≠ w.locate temp := by
      rw [over_.locate_eq]
      exact (outside temp (by simp)).symm
    refine Fs.seenAt_congr ?_ fun ino found => data ino ?_
    · rw [entries]
      simp [Fs.create, apart]
    · exact (w.fs.allocated loc ino found).ne

theorem Overlays.mkdir (over_ : Overlays fs₀ t w.anonFiles w) (ledger : Ledger w) {path : Bytes}
    {mode : ℕ} (vacant : w.fs.CanCreate (w.locate path)) :
    Overlays fs₀ (Function.update t (locate fs₀.cwd path) (some .dir)) w.anonFiles
      (w.mkdir k seq path mode true) := by
  have here := over_.locate_eq path
  have apart : ∀ temp ∈ w.anonFiles, locate fs₀.cwd temp ≠ locate fs₀.cwd path := by
    intro temp among
    rw [← here, ← over_.locate_eq]
    exact ledger.locate_ne vacant.2.1 among
  have can : locate fs₀.cwd path ≠ [] ∧ t (locate fs₀.cwd path) = none ∧
      t.IsDir (locate fs₀.cwd path).dropLast := by
    rw [← here]
    exact ⟨vacant.1, over_.vacant ledger vacant.2.1, over_.isDir ledger vacant.2.2⟩
  constructor
  case cwd => simpa using over_.cwd
  case replay =>
    rw [replay_of_replayed over_.replay (World.mkdir_calls ..)]
    simp [doneOps, Remote.replay, Remote.apply, can]
  case free =>
    intro temp among
    rw [Function.update_of_ne (apart temp among)]
    exact over_.free temp among
  case rest =>
    intro loc outside
    by_cases there : loc = locate fs₀.cwd path
    · subst there
      simp [here, Fs.seenAt, Fs.mkdir]
    · rw [Function.update_of_ne there, ← over_.rest loc outside]
      exact Fs.seenAt_congr (by simp [Fs.mkdir, here, there]) fun _ _ => by simp

end Worlds

/-! ## The rename that ends a transfer -/

section Rename

variable {fs₀ : Fs} {t : Remote} {w : World} {k : ℕ} {seq : UInt32} {temp path : Bytes} {ino : ℕ}

/-- No temporary file other than the transfer's own is in the way of the `rename`. -/
def Clear (w : World) (temp path : Bytes) : Prop :=
  ∀ other ∈ w.anonFiles, other ≠ temp → w.locate other ≠ w.locate path

/-- A `rename` that the kernel can perform is one that the tree allows. -/
theorem Overlays.allowed (over_ : Overlays fs₀ t w.anonFiles w) (ledger : Ledger w)
    (among : temp ∈ w.anonFiles) (clear : Clear w temp path)
    (can : w.fs.CanRename (w.locate temp) (w.locate path)) :
    locate fs₀.cwd path ≠ [] ∧ t (locate fs₀.cwd path) ≠ some .dir ∧
      t.IsDir (locate fs₀.cwd path).dropLast := by
  rw [← over_.locate_eq]
  obtain ⟨-, top, parent, target⟩ := can
  refine ⟨top, fun directory => ?_, over_.isDir ledger parent⟩
  by_cases own : w.locate temp = w.locate path
  · rw [← own, over_.locate_eq, over_.free temp among] at directory
    cases directory
  · -- The destination is under no temporary name, so the file system shows the directory too.
    have shown : w.fs.seenAt (w.locate path) = some .dir := by
      rw [over_.rest _ fun other member => ?_]
      · exact directory
      · rw [← over_.locate_eq]
        by_cases same : other = temp
        · rwa [same]
        · exact clear other member same
    obtain ⟨mode, found⟩ := Fs.seenAt_eq_dir.1 shown
    rcases target with vacant | file
    · simp [found] at vacant
    · simp [Fs.fileAt, found] at file

theorem Overlays.rename (over_ : Overlays fs₀ t w.anonFiles w) (ledger : Ledger w)
    (file : w.fs.Private (w.locate temp) ino) (among : temp ∈ w.anonFiles)
    (clear : Clear w temp path) (can : w.fs.CanRename (w.locate temp) (w.locate path)) :
    Overlays fs₀ (Function.update t (locate fs₀.cwd path) (some (.file (w.fs.data ino))))
      (w.anonFiles.erase temp) (w.rename k seq (w.fs.data ino) temp path true) := by
  have locate_eq := over_.locate_eq
  have names : w.anonFiles.Nodup := ledger.nodup.of_map _
  constructor
  case cwd => simpa using over_.cwd
  case replay =>
    rw [replay_of_replayed over_.replay (World.rename_calls ..)]
    simp [doneOps, Remote.replay, Remote.apply, over_.allowed ledger among clear can]
  case free =>
    intro other member
    obtain ⟨different, old⟩ := names.mem_erase_iff.1 member
    rw [Function.update_of_ne, over_.free other old]
    rw [← locate_eq, ← locate_eq]
    exact clear other old different
  case rest =>
    intro loc outside
    rw [World.rename_fs, if_pos rfl, Function.update_apply, ← locate_eq]
    by_cases own : w.locate temp = loc
    · -- The temporary name is gone, unless the file was renamed to itself.
      subst own
      by_cases same : w.locate temp = w.locate path
      · rw [file.seenAt_rename (.inr same), if_pos same, if_pos same]
      · rw [if_neg same, locate_eq temp, over_.free temp among]
        simp [Fs.rename, Fs.seenAt, same, ← locate_eq temp]
    · rw [file.seenAt_rename (.inl (Ne.symm own))]
      refine ite_congr rfl (fun _ => rfl) fun _ => over_.rest loc fun other member => ?_
      by_cases same : other = temp
      · rw [same, ← locate_eq]
        exact own
      · exact outside other ((List.mem_erase_of_ne same).2 member)

end Rename

/-! ## Every move -/

section Moves

variable {fs₀ : Fs} {others : Loc → ℕ → Bytes → Prop} {taken : Bytes → Prop} {k : ℕ}
  {st st' : ConnectionState} {w w' : World}

/-- The tree beside the files of `ANON_FILES`. -/
def Shows (fs₀ : Fs) (w : World) : Prop := ∃ t, Overlays fs₀ t w.anonFiles w

theorem Shows.of_fields (shows : Shows fs₀ w) (fs : w'.fs = w.fs) (calls : w'.calls = w.calls)
    (anonFiles : w'.anonFiles = w.anonFiles) : Shows fs₀ w' := by
  obtain ⟨t, over_⟩ := shows
  exact ⟨t, anonFiles ▸ over_.of_fields fs calls⟩

theorem Shows.close (shows : Shows fs₀ w) (fd : ℤ) : Shows fs₀ (w.close fd) :=
  shows.of_fields (by simp) (by simp) (by simp)

/-- A block stored by a receiving connection lands in its temporary file. -/
theorem Shows.read (shows : Shows fs₀ w) (sound : Sound fs₀ others st w) (shelf : Shelf taken st w)
    {block : Bytes} (unused : List SysRead) (fits : block.length ≤ st.goal - st.progress) :
    Shows fs₀ (w.receive k block unused ((targetOf st.kind).storeFs block st w.fs)) := by
  obtain ⟨t, over_⟩ := shows
  by_cases receiving : st.kind = .receiving
  · obtain ⟨ino, holding⟩ := sound.own receiving
    have target : targetOf st.kind = .map := by rw [receiving]; rfl
    have entries : (w.fs.store st.anonBuf st.progress block).entries = w.fs.entries := by simp
    rw [target]
    have longer : (w.receive k block unused (Target.map.storeFs block st w.fs)).calls =
        w.calls ++ [] := (List.append_nil _).symm
    refine ⟨t, over_.grow longer (by simp [doneOps]) ?_ (List.Subset.refl _) over_.free fun loc outside => ?_⟩
    · exact Fs.cwd_store ..
    · refine Fs.seenAt_congr (congrFun entries loc) fun other here => ?_
      refine holding.store fits (.inl ?_)
      rintro rfl
      exact outside _ (shelf.own receiving) (holding.file.only loc here).symm
  · rw [targetOf_eq_buf receiving]
    exact ⟨t, over_.of_fields rfl rfl⟩

/-- The calls that open a transfer act on no path. -/
theorem exists_harmless_mmap (w : World) (k : ℕ) (seq : UInt32) (temp : Bytes) (size : ℕ)
    (ok : Bool) : ∃ calls, (w.mmap k seq temp size ok).calls = w.calls ++ calls ∧
      ∀ op ∈ doneOps calls, op.isFinal = false := by
  rw [World.mmap_calls, World.ftruncate_calls, List.append_assoc, List.append_assoc]
  refine ⟨_, rfl, fun op among => ?_⟩
  obtain ⟨call, member, rfl⟩ := List.mem_map.1 among
  have possible := List.mem_of_mem_filter member
  split at possible
  · simp only [List.cons_append, List.nil_append, List.mem_cons, List.not_mem_nil, or_false]
      at possible
    rcases possible with rfl | rfl | rfl <;> rfl
  · simp only [List.append_nil, List.cons_append, List.nil_append, List.mem_cons,
      List.not_mem_nil, or_false] at possible
    rcases possible with rfl | rfl <;> rfl

theorem Shows.mmap (shows : Shows fs₀ w) (ledger : Ledger w) {seq : UInt32} {temp : Bytes}
    {size : ℕ} (vacant : w.fs.CanCreate (w.locate temp)) (ok : Bool) :
    Shows fs₀ (w.mmap k seq temp size ok) := by
  obtain ⟨t, over_⟩ := shows
  obtain ⟨calls, longer, harmless⟩ := exists_harmless_mmap w k seq temp size ok
  refine ⟨t, ?_⟩
  rw [World.mmap_anonFiles]
  refine over_.create ledger vacant longer harmless (by simp) (by simp) fun ino old => ?_
  simp [Fs.truncate, Fs.create, old]

theorem Shows.published (shows : Shows fs₀ w) (sound : Sound fs₀ others st w)
    (shelf : Shelf taken st w) {p : Phase} (tracks : Tracks w k st p)
    (kind : st.kind = .receiving) (full : st.progress = st.goal)
    (can : w.fs.CanRename (w.locate st.anonPath) (w.locate st.path))
    (spared : Spared fs₀.cwd
      (w.rename k st.seq (st.payload w.fs) st.anonPath st.path true).calls) :
    Shows fs₀ ({ w.rename k st.seq (st.payload w.fs) st.anonPath st.path true with
      anonFiles := w.anonFiles.erase st.anonPath } : World) := by
  obtain ⟨t, over_⟩ := shows
  obtain ⟨ino, holding⟩ := sound.own kind
  have locate_eq := over_.locate_eq
  have file := holding.file
  rw [← locate_eq] at file
  have clear : Clear w st.anonPath st.path := by
    intro other member different there
    have temp := sound.tidy.anonFiles other member
    rw [← locate_eq, there, locate_eq] at temp
    have own := spared _ (List.mem_append_right _ (List.mem_singleton_self _)) st.path rfl
      (temp.mono (List.subset_append_left ..))
    refine different (shelf.ledger.locate_injOn member (shelf.own kind) ?_)
    rw [there, locate_eq, locate_eq]
    exact (Option.some.inj own).symm
  rw [← holding.contents tracks kind full]
  exact ⟨_, (over_.rename shelf.ledger file (shelf.own kind) clear can).of_fields rfl rfl⟩

/-- **Every move keeps the tree beside the temporary files.** -/
theorem Shows.move (shows : Shows fs₀ w) (sound : Sound fs₀ others st w) (shelf : Shelf taken st w)
    {p : Phase} (tracks : Tracks w k st p) (move : Move k (st, w) (st', w'))
    (spared : Spared fs₀.cwd w'.calls) : Shows fs₀ w' := by
  cases move with
  | arm | header => exact shows
  | read block unused kind fits later => exact shows.read sound shelf unused fits
  | opened temp kind full regular free => exact shows.mmap shelf.ledger free true
  | made kind full other free =>
      obtain ⟨t, over_⟩ := shows
      exact Shows.close ⟨_, over_.mkdir shelf.ledger free⟩ _
  | published kind full can =>
      exact (shows.published sound shelf tracks kind full can (by simpa using spared)).close _

theorem Chain.shows {s s' : ConnectionState × World} (chain : Chain k s s')
    (tracked : ∃ p, Tracks s.2 k s.1 p) (sound : Sound fs₀ others s.1 s.2)
    (shelf : Shelf taken s.1 s.2) (shows : Shows fs₀ s.2) (spared : Spared fs₀.cwd s'.2.calls) :
    Shows fs₀ s'.2 := by
  induction chain with
  | refl => exact shows
  | tail chain move ih =>
      have before := spared.mono move.calls_isPrefix.subset
      obtain ⟨p, tracks⟩ := Tracks.chain chain tracked
      exact (ih before).move (Chain.sound chain tracked sound before) (Shelf.chain chain shelf)
        tracks move spared

/-- A chain that is cut short leaves the tree beside temporary files too. The file of a failed
`ftruncate` is one of them that `ANON_FILES` does not have. -/
theorem Shows.abort (shows : Shows fs₀ w) (sound : Sound fs₀ others st w) (shelf : Shelf taken st w)
    {p : Phase} (tracks : Tracks w k st p) {e : Exit} (abort : Abort k (st, w) e w')
    (answered : e ≠ .blocked) :
    ∃ t temps, Overlays fs₀ t temps w' ∧
      (∀ temp ∈ temps, TempLoc fs₀.cwd w'.calls (locate fs₀.cwd temp)) ∧
      (e ≠ .fatal → temps = w'.anonFiles ∧ Ledger w') := by
  have tidy := sound.abort tracks abort answered
  obtain ⟨t, over_⟩ := shows
  cases abort with
  | blocked => exact absurd rfl answered
  | read block unused kind short later failed =>
      obtain ⟨t, over_⟩ := Shows.read (k := k) ⟨t, over_⟩ sound shelf unused short.le
      have ledger := (shelf.move (k := k) (.read block unused kind short.le later)).ledger
      exact ⟨t, _, over_, tidy.anonFiles, fun _ => ⟨rfl, ledger⟩⟩
  | mkstemp temp =>
      have quiet : Overlays fs₀ t w.anonFiles (w.mkstemp k st.msg.seq temp false) :=
        over_.quiet (World.mkstemp_calls ..) (by simp [doneOps]) rfl
      exact ⟨t, _, quiet, tidy.anonFiles, fun bad => absurd rfl bad⟩
  | ftruncate temp kind full regular free =>
      have created : Overlays fs₀ t (w.anonFiles ++ [temp])
          (w.ftruncate k st.msg.seq temp st.msg.fsize.toNat false) := by
        refine over_.create shelf.ledger free
          ((World.ftruncate_calls ..).trans (List.append_assoc ..)) ?_ rfl rfl fun ino old => ?_
        · simp [doneOps, FsOp.isFinal]
        · simp [Fs.create, old]
      refine ⟨t, _, created, List.forall_mem_append.2 ⟨tidy.anonFiles, fun new among => ?_⟩,
        fun bad => absurd rfl bad⟩
      rw [List.mem_singleton.1 among]
      exact TempLoc.mono (tempLoc_mkstemp ..) (List.subset_append_left ..)
  | mmap temp kind full regular free counted =>
      have failed : Shows fs₀ (w.mmap k st.msg.seq temp st.msg.fsize.toNat false) :=
        Shows.mmap ⟨t, over_⟩ shelf.ledger free false
      obtain ⟨t, over_⟩ := failed
      exact ⟨t, _, over_, tidy.anonFiles, fun bad => absurd rfl bad⟩
  | mkdir =>
      have quiet : Overlays fs₀ t w.anonFiles
          (w.mkdir k st.msg.seq st.parsed.path st.perms false) :=
        over_.quiet (World.mkdir_calls ..) (by simp [doneOps]) rfl
      exact ⟨t, _, quiet, tidy.anonFiles, fun bad => absurd rfl bad⟩
  | rename =>
      have quiet : Overlays fs₀ t w.anonFiles
          (w.rename k st.seq (st.payload w.fs) st.anonPath st.path false) :=
        over_.quiet (World.rename_calls ..) (by simp [doneOps]) rfl
      exact ⟨t, _, quiet, tidy.anonFiles, fun bad => absurd rfl bad⟩

end Moves

/-! ## The end of `daemon_main` -/

section Ending

variable {fs₀ : Fs} {t : Remote} {temps : List Bytes} {w : World}

theorem seenAt_unlink_ne (fs : Fs) {loc other : Loc} (apart : loc ≠ other) :
    (fs.unlink other).seenAt loc = fs.seenAt loc := by
  unfold Fs.unlink
  split
  · exact Fs.seenAt_congr (by simp [apart]) fun _ _ => rfl
  · rfl

theorem seenAt_unlink_self {fs : Fs} {loc : Loc} (file : fs.seenAt loc ≠ some .dir) :
    (fs.unlink loc).seenAt loc = none := by
  unfold Fs.unlink
  split
  · simp [Fs.seenAt]
  · rename_i other
    cases entry : fs.entries loc with
    | none => exact Fs.seenAt_eq_none.2 entry
    | some e =>
        cases e with
        | dir mode => exact absurd (Fs.seenAt_eq_dir.2 ⟨mode, entry⟩) file
        | file ino => exact absurd entry (other ino)

/-- The `atexit` handler leaves the tree alone. -/
theorem Overlays.unlinked (over_ : Overlays fs₀ t temps w)
    (files : ∀ temp ∈ temps, w.fs.seenAt (locate fs₀.cwd temp) ≠ some .dir) :
    Overlays fs₀ t [] (temps.foldl (fun w path => w.commit (w.fs.unlink (w.locate path))) w) := by
  induction temps generalizing w with
  | nil => exact over_
  | cons temp temps ih =>
      have here := over_.locate_eq temp
      have file := files temp List.mem_cons_self
      refine ih ⟨?_, over_.replay, fun other among => over_.free other (.tail _ among), ?_⟩ ?_
      · simpa [World.commit] using over_.cwd
      · intro loc outside
        change (w.fs.unlink (w.locate temp)).seenAt loc = t loc
        by_cases own : loc = locate fs₀.cwd temp
        · rw [own, here, seenAt_unlink_self file, over_.free temp List.mem_cons_self]
        · rw [here, seenAt_unlink_ne _ own]
          refine over_.rest loc (List.forall_mem_cons.2 ⟨Ne.symm own, outside⟩)
      · intro other among
        change (w.fs.unlink (w.locate temp)).seenAt _ ≠ _
        by_cases own : locate fs₀.cwd other = locate fs₀.cwd temp
        · rw [own, here, seenAt_unlink_self file]
          simp
        · rw [here, seenAt_unlink_ne _ own]
          exact files other (.tail _ among)

theorem Overlays.returnFalse (over_ : Overlays fs₀ t w.anonFiles w) (ledger : Ledger w)
    (d : Server) : Overlays fs₀ t [] (d.returnFalse w).world := by
  have closes := destroyAll_closes d.states w
  have closed := over_.of_fields closes.fs closes.calls
  refine Overlays.unlinked (closes.anonFiles ▸ closed) fun temp among => ?_
  rw [closes.anonFiles] at among
  obtain ⟨ino, entry⟩ := ledger.kept temp among
  rw [over_.locate_eq] at entry
  simp [Fs.seenAt, closes.fs, entry]

end Ending

/-! ## Every run -/

/-- The tree that the completed messages give, and temporary files beside it: those of
`ANON_FILES` while the daemon runs, and none when `daemon_main` has returned. -/
def Layers (fs₀ : Fs) (d : Server) : Prop :=
  ∃ t temps, Overlays fs₀ t temps d.world ∧
    (∀ temp ∈ temps, TempLoc fs₀.cwd d.world.calls (locate fs₀.cwd temp)) ∧
    (d.status = .running → temps = d.world.anonFiles) ∧ (d.status = .returned → temps = [])

section Events

variable {fs₀ : Fs} {d d' : Server} {inherited : List Bool} {dmsg : DaemonInitMessage}

theorem Layers.shows (layers : Layers fs₀ d) (running : d.status = .running) :
    Shows fs₀ d.world := by
  obtain ⟨t, temps, over_, -, still, -⟩ := layers
  exact ⟨t, still running ▸ over_⟩

theorem Shows.layers (shows : Shows fs₀ d.world) (tidy : Tidy fs₀ d.world)
    (alive : d.status ≠ .returned) : Layers fs₀ d := by
  obtain ⟨t, over_⟩ := shows
  exact ⟨t, _, over_, tidy.anonFiles, fun _ => rfl, fun returned => absurd returned alive⟩

/-- What is known in the middle of a wake-up. -/
theorem Layers.chain (layers : Layers fs₀ d)
    (reachable : Reachable step (start inherited fs₀ dmsg) d) (running : d.status = .running)
    {ans : Answers} {pfd : PollFd} {k : ℕ} {mid : ConnectionState × World}
    (here : d.fds[d.idx]? = some pfd) (other : pfd.fd ∉ d.socketFds)
    (conn : d.world.table.get pfd.fd = some (.conn k))
    (chain : Chain k (d.stateOf pfd.fd, d.answered ans) mid)
    (spared : Spared fs₀.cwd mid.2.calls) :
    ∃ others taken p, Tracks mid.2 k mid.1 p ∧ Sound fs₀ others mid.1 mid.2 ∧
      Shelf taken mid.1 mid.2 ∧ Shows fs₀ mid.2 := by
  have invariant := reachable_invariant reachable
  have coherent := invariant.coherent (by simp [running]) (invariant.running running)
  have found := coherent.stateOf here other
  have tracked := (coherent.answered ans).tracks _ _ k found conn
  have earlier : Spared fs₀.cwd d.world.calls :=
    spared.mono (Chain.calls_isPrefix chain).subset
  have names := answered_names (reachable_guarded reachable earlier) running ans
  have shelf := (reachable_shelved reachable running).answered pfd.fd ans
  have shows : Shows fs₀ (d.answered ans) := (layers.shows running).of_fields rfl rfl rfl
  obtain ⟨p, tracks⟩ := Tracks.chain chain tracked
  exact ⟨_, _, p, tracks, Chain.sound chain tracked (names.sound found) spared,
    Shelf.chain chain shelf, Chain.shows chain tracked (names.sound found) shelf shows spared⟩

theorem Layers.event {input : Input} (reachable : Reachable step (start inherited fs₀ dmsg) d)
    (running : d.status = .running) (event : Event d input d') (tidy : Tidy fs₀ d'.world)
    (spared : Spared fs₀.cwd d'.world.calls)
    (before : Spared fs₀.cwd d.world.calls → Layers fs₀ d) : Layers fs₀ d' := by
  cases event with
  | polled | interrupted | pollFailed | skipped | refused | admitted =>
      have shows := (before spared).shows running
      exact Shows.layers (shows.of_fields rfl rfl rfl) tidy (by simp [running, Server.welcome])
  | overflowed =>
      have shows := (before spared).shows running
      exact Shows.layers (shows.of_fields rfl rfl rfl) tidy (by simp [Server.overflow])
  | @hungUp ans pfd here flagged =>
      have closes := hangUp_closes d pfd.fd
      have shows := (before (closes.calls ▸ spared)).shows running
      exact Shows.layers (shows.of_fields closes.fs closes.calls closes.anonFiles) tidy
        (by simp [running, Server.hangUp])
  | @woken ans pfd k st w here other conn chain rest =>
      have earlier := spared.mono (Chain.calls_isPrefix chain).subset
      obtain ⟨-, -, -, -, -, -, shows⟩ :=
        (before earlier).chain reachable running here other conn chain spared
      exact Shows.layers (d := d.wake pfd.fd st w) shows tidy (by simp [running, Server.wake])
  | @returned ans pfd k st w here other conn cut =>
      rw [(returnFalse_fields _ w).2] at spared
      have answered : Exit.returned st ≠ .blocked := by simp
      have earlier := spared.mono (cut.calls_isPrefix answered).subset
      obtain ⟨mid, chain, abort⟩ := cut
      obtain ⟨others, taken, p, tracks, sound, shelf, shows⟩ := (before earlier).chain reachable
        running here other conn chain (spared.mono (abort.calls_isPrefix answered).subset)
      obtain ⟨t, temps, over_, -, noted⟩ := shows.abort sound shelf tracks abort answered
      obtain ⟨rfl, ledger⟩ := noted (by simp)
      exact ⟨t, [], over_.returnFalse ledger _, by simp, by simp [Server.returnFalse],
        fun _ => rfl⟩
  | @failed ans pfd k w here other conn cut =>
      have answered : Exit.fatal ≠ .blocked := by simp
      have earlier := spared.mono (cut.calls_isPrefix answered).subset
      obtain ⟨mid, chain, abort⟩ := cut
      obtain ⟨others, taken, p, tracks, sound, shelf, shows⟩ := (before earlier).chain reachable
        running here other conn chain (spared.mono (abort.calls_isPrefix answered).subset)
      obtain ⟨t, temps, over_, temp, -⟩ := shows.abort sound shelf tracks abort answered
      exact ⟨t, temps, over_, temp, by simp, by simp⟩
  | @dangling ans pfd here other gone =>
      have invariant := reachable_invariant reachable
      have coherent := invariant.coherent (by simp [running]) (invariant.running running)
      obtain ⟨k, conn⟩ := coherent.conn _ _ (coherent.stateOf here other) other
      exact absurd conn (gone k)

end Events

/-- **The daemon acts on whole messages, one after the other.** In every state of every run,
whatever the connections do and however the daemon ends, the file system shows the tree that the
calls which ended a message give one after the other, and beside it only temporary files. While
the daemon runs these are the files of `ANON_FILES`; when `daemon_main` has returned there is none. -/
theorem reachable_layers {inherited : List Bool} {fs : Fs} {dmsg : DaemonInitMessage} {d : Server}
    (reachable : Reachable step (start inherited fs dmsg) d)
    (spared : Spared fs.cwd d.world.calls) : Layers fs d := by
  have both : Reachable step (start inherited fs dmsg) d ∧
      (Spared fs.cwd d.world.calls → Layers fs d) := by
    refine reachable.invariant (P := fun d => Reachable step (start inherited fs dmsg) d ∧
      (Spared fs.cwd d.world.calls → Layers fs d)) ⟨.refl _, fun _ => ?_⟩ ?_
    · exact ⟨fs.seenAt, [], ⟨rfl, rfl, by simp, fun _ _ => rfl⟩, by simp, fun _ => rfl, fun _ => rfl⟩
    · rintro d input d' ⟨earlier, before⟩ stepped
      obtain ⟨running, event, -⟩ := step_event (reachable_settled earlier) stepped
      have later := earlier.tail stepped
      exact ⟨later, fun spared => Layers.event earlier running event
        (reachable_guarded later spared).tidy spared before⟩
  exact both.2 spared

/-- **The daemon does what one would do that acts on each message in one piece.** On every
connection the calls that act on paths are those of whole messages, in order, and while the daemon
runs of all of them. Replayed one after the other they give a tree, and the file system shows this
tree and beside it only temporary files: while the daemon runs those of `ANON_FILES`, and none when
`daemon_main` has returned. -/
theorem daemon_replays {inherited : List Bool} {fs : Fs} {dmsg : DaemonInitMessage} {d : Server}
    (reachable : Reachable step (start inherited fs dmsg) d)
    (spared : Spared fs.cwd d.world.calls) :
    (∀ k, finals (issuedBy k d.world.calls) <+: finals (issuedAfter (d.world.received k)) ∧
      (d.status = .running →
        finals (issuedBy k d.world.calls) = finals (issuedAfter (d.world.received k)))) ∧
    ∃ t temps, Remote.replay fs.cwd fs.seenAt (doneOps d.world.calls) = some t ∧
      (∀ loc, (∀ temp ∈ temps, locate fs.cwd temp ≠ loc) → d.world.fs.seenAt loc = t loc) ∧
      (∀ temp ∈ temps, TempLoc fs.cwd d.world.calls (locate fs.cwd temp) ∧
        t (locate fs.cwd temp) = none) ∧
      (d.status = .running → temps = d.world.anonFiles) ∧ (d.status = .returned → temps = []) := by
  have invariant := reachable_invariant reachable
  constructor
  · intro k
    refine ⟨(invariant.prefixed k).filter _, fun running => ?_⟩
    rw [invariant.complete (invariant.running running) k]
  · obtain ⟨t, temps, over_, made, noted, gone⟩ := reachable_layers reachable spared
    exact ⟨t, temps, over_.replay, over_.rest, fun temp among =>
      ⟨made temp among, over_.free temp among⟩, noted, gone⟩

/-- Two connections at work: the tree has the file and the directories of the messages that are
whole, and beside it there is the temporary file of the one that is not. -/
theorem daemon_replays_sample :
    ∃ d t, run step pairStart (busyInputs [.data [3], .zero]) = some d ∧
      d.world.anonFiles = [({} : Answers).temp] ∧
      Remote.replay sampleFs.cwd sampleFs.seenAt
        [.rename [97] [1, 2], .mkdir [99] 0, .mkdir [98] 0] = some t ∧
      ∀ loc, locate sampleFs.cwd ({} : Answers).temp ≠ loc → d.world.fs.seenAt loc = t loc := by
  have facts : ∀ d ∈ run step pairStart (busyInputs [.data [3], .zero]), d.status = .running ∧
      Spared sampleFs.cwd d.world.calls ∧ d.world.anonFiles = [({} : Answers).temp] ∧
      (doneOps d.world.calls).filter FsOp.isFinal =
        [.rename [97] [1, 2], .mkdir [99] 0, .mkdir [98] 0] := by
    decide +kernel
  obtain ⟨d, reaches⟩ := Option.isSome_iff_exists.1
    (show (run step pairStart (busyInputs [.data [3], .zero])).isSome by decide +kernel)
  obtain ⟨running, spared, one, done⟩ := facts d reaches
  have reachable : Reachable step (start [true, true, true] sampleFs ⟨50000, 2⟩) d := ⟨_, reaches⟩
  obtain ⟨-, t, temps, replay, shown, -, noted, -⟩ := daemon_replays reachable spared
  rw [← Remote.replay_filter, done] at replay
  refine ⟨d, t, reaches, one, replay, fun loc apart => shown loc ?_⟩
  rw [noted running, one]
  simpa using apart

end Daemon

end Enuwatch

import Enuwatch.Daemon.Publication

/-!
# Destinations change atomically

The invariant of one connection is put together for all of them (`Names`): every connection
that is receiving has a private temporary file, and no two have the same. It holds in every
state of every run in which no message names the temporary path of another transfer
(`reachable_tidy`), and with it every destination is intact at every moment.
-/

set_option autoImplicit false

namespace Enuwatch.Daemon

open Enuwatch.Lib Enuwatch.Net

/-- The temporary files of all connections. -/
structure Names (fs₀ : Fs) (states : AList fun _ : ℕ => ConnectionState) (w : World) : Prop where
  tidy : Tidy fs₀ w
  own : ∀ x st, states.lookup x = some st → st.kind = .receiving →
    ∃ ino, Holding fs₀.cwd w st ino
  apart : ∀ x y st st', x ≠ y → states.lookup x = some st → states.lookup y = some st' →
    st.kind = .receiving → st'.kind = .receiving →
    locate fs₀.cwd st.anonPath ≠ locate fs₀.cwd st'.anonPath

/-- The temporary files of the connections other than `x`. -/
def othersOf (cwd : Loc) (states : AList fun _ : ℕ => ConnectionState) (w : World) (x : ℕ) :
    Loc → ℕ → Bytes → Prop := fun loc ino data =>
  ∃ y st, y ≠ x ∧ states.lookup y = some st ∧ st.kind = .receiving ∧
    loc = locate cwd st.anonPath ∧ Holding cwd w st ino ∧ data = w.fs.data ino

section Names

variable {fs₀ : Fs} {states : AList fun _ : ℕ => ConnectionState} {w w' : World} {x k : ℕ}
  {st st' : ConnectionState}

/-- One connection among the others. -/
theorem Names.sound (names : Names fs₀ states w) (found : states.lookup x = some st) :
    Sound fs₀ (othersOf fs₀.cwd states w x) st w where
  tidy := names.tidy
  own := names.own x st found
  kept := by
    rintro loc ino data ⟨y, sty, -, -, -, rfl, holding, rfl⟩
    exact ⟨holding.file, holding.temp, rfl⟩
  apart := by
    rintro receiving loc ino data ⟨y, sty, different, theirs, kind, rfl, -, -⟩
    exact names.apart y x sty st different theirs found kind receiving

/-- The others among one that has moved. -/
theorem Names.wake (names : Names fs₀ states w)
    (sound : Sound fs₀ (othersOf fs₀.cwd states w x) st' w') :
    Names fs₀ (states.insert x st') w' := by
  have foreign : ∀ y sty, y ≠ x → states.lookup y = some sty → sty.kind = .receiving →
      st'.kind = .receiving → locate fs₀.cwd sty.anonPath ≠ locate fs₀.cwd st'.anonPath := by
    intro y sty different found kind receiving
    obtain ⟨ino, holding⟩ := names.own y sty found kind
    exact sound.apart receiving _ ino _ ⟨y, sty, different, found, kind, rfl, holding, rfl⟩
  constructor
  case tidy => exact sound.tidy
  case own =>
    intro y sty this kind
    rcases lookup_insert_cases this with ⟨rfl, rfl⟩ | ⟨different, this⟩
    · exact sound.own kind
    · obtain ⟨ino, holding⟩ := names.own y sty this kind
      obtain ⟨priv, temp, data⟩ :=
        sound.kept _ ino _ ⟨y, sty, different, this, kind, rfl, holding, rfl⟩
      exact ⟨ino, priv, temp, holding.mapped, fun empty => data.trans (holding.empty empty)⟩
  case apart =>
    intro y z sty stz different this that left right
    rcases lookup_insert_cases this with ⟨rfl, rfl⟩ | ⟨notx, found₁⟩ <;>
      rcases lookup_insert_cases that with ⟨rfl, rfl⟩ | ⟨notx', found₂⟩
    · exact absurd rfl different
    · exact (foreign z stz notx' found₂ right left).symm
    · exact foreign y sty notx found₁ left right
    · exact names.apart y z sty stz different found₁ found₂ left right

theorem Names.of_fields (names : Names fs₀ states w) (tidy : Tidy fs₀ w') (fs : w'.fs = w.fs)
    (calls : w'.calls = w.calls) : Names fs₀ states w' := by
  refine ⟨tidy, fun y sty this kind => ?_, names.apart⟩
  obtain ⟨ino, file, temp, mapped, empty⟩ := names.own y sty this kind
  exact ⟨ino, by rwa [fs], by rwa [calls], mapped, by rwa [fs]⟩

theorem Names.erase (names : Names fs₀ states w) (x : ℕ) : Names fs₀ (states.erase x) w := by
  have remains : ∀ y sty, (states.erase x).lookup y = some sty → states.lookup y = some sty := by
    intro y sty this
    by_cases same : y = x
    · subst same
      simp at this
    · simpa [same] using this
  exact ⟨names.tidy, fun y sty this => names.own y sty (remains y sty this),
    fun y z sty stz different this that =>
      names.apart y z sty stz different (remains y sty this) (remains z stz that)⟩

/-- A connection that is not receiving needs no temporary file. -/
theorem Names.insert (names : Names fs₀ states w) (idle : st.kind ≠ .receiving) (x : ℕ) :
    Names fs₀ (states.insert x st) w := by
  constructor
  case tidy => exact names.tidy
  case own =>
    intro y sty this kind
    rcases lookup_insert_cases this with ⟨rfl, rfl⟩ | ⟨-, this⟩
    · exact absurd kind idle
    · exact names.own y sty this kind
  case apart =>
    intro y z sty stz different this that left right
    rcases lookup_insert_cases this with ⟨rfl, rfl⟩ | ⟨-, found₁⟩
    · exact absurd left idle
    · rcases lookup_insert_cases that with ⟨rfl, rfl⟩ | ⟨-, found₂⟩
      · exact absurd right idle
      · exact names.apart y z sty stz different found₁ found₂ left right

end Names

section Chains

variable {fs₀ : Fs} {others : Loc → ℕ → Bytes → Prop} {k : ℕ} {s s' : ConnectionState × World}
  {w : World}

theorem Chain.sound (chain : Chain k s s') (tracked : ∃ p, Tracks s.2 k s.1 p)
    (sound : Sound fs₀ others s.1 s.2) (spared : Spared fs₀.cwd s'.2.calls) :
    Sound fs₀ others s'.1 s'.2 := by
  induction chain with
  | refl => exact sound
  | tail chain move ih =>
      obtain ⟨p, tracks⟩ := Tracks.chain chain tracked
      exact (ih (spared.mono move.calls_isPrefix.subset)).move tracks move spared

theorem Cut.tidy {e : Exit} (cut : Cut k s e w) (tracked : ∃ p, Tracks s.2 k s.1 p)
    (sound : Sound fs₀ others s.1 s.2) (spared : Spared fs₀.cwd w.calls) (answered : e ≠ .blocked) :
    Tidy fs₀ w := by
  obtain ⟨mid, chain, abort⟩ := cut
  obtain ⟨p, tracks⟩ := Tracks.chain chain tracked
  have before := spared.mono (abort.calls_isPrefix answered).subset
  exact (Chain.sound chain tracked sound before).abort tracks abort answered

end Chains

/-! ## Every run -/

section Events

variable {fs₀ : Fs} {d d' : Server} {w : World}

/-- The `atexit` handler unlinks temporary files only. -/
theorem Tidy.unlinkAnonFiles (tidy : Tidy fs₀ w) : Tidy fs₀ (unlinkAnonFiles w) := by
  have unlinked : ∀ (paths : List Bytes) (w : World), Tidy fs₀ w →
      (∀ path ∈ paths, TempLoc fs₀.cwd w.calls (locate fs₀.cwd path)) →
      Tidy fs₀ (paths.foldl (fun w path => w.commit (w.fs.unlink (w.locate path))) w) := by
    intro paths
    induction paths with
    | nil => exact fun w tidy _ => tidy
    | cons path paths ih =>
        intro w tidy temps
        refine ih _ ?_ fun other member => temps other (List.mem_cons_of_mem _ member)
        have now : ∀ loc, ¬ TempLoc fs₀.cwd w.calls loc →
            Intact fs₀ ⟨w.fs.unlink (w.locate path), w.received⟩ loc := by
          intro loc outside
          refine (tidy.intact loc outside).congr (Fs.fileAt_unlink_ne ?_) fun _ => List.prefix_rfl
          rintro rfl
          rw [tidy.locate_eq] at outside
          exact outside (temps path (List.mem_cons_self ..))
        exact ⟨by simpa [World.commit] using tidy.cwd, now, tidy.moments_append now,
          tidy.anonFiles, tidy.sources⟩
  exact unlinked _ w tidy tidy.anonFiles

theorem Tidy.closesOnly {w' : World} (tidy : Tidy fs₀ w) (closes : ClosesOnly w w') : Tidy fs₀ w' :=
  tidy.of_fields closes.fs closes.received closes.calls closes.moments
    (by rw [closes.anonFiles]; exact tidy.anonFiles)

theorem Tidy.returnFalse (tidy : Tidy fs₀ w) (d : Server) : Tidy fs₀ (d.returnFalse w).world :=
  (tidy.closesOnly (destroyAll_closes d.states w)).unlinkAnonFiles

/-- Destinations are intact, and while the daemon runs its temporary files are private. -/
structure Guarded (fs₀ : Fs) (d : Server) : Prop where
  tidy : Tidy fs₀ d.world
  names : d.status = .running → Names fs₀ d.states d.world

theorem answered_names (guarded : Guarded fs₀ d) (running : d.status = .running) (ans : Answers) :
    Names fs₀ d.states (d.answered ans) :=
  (guarded.names running).of_fields
    (guarded.tidy.of_fields rfl rfl rfl rfl guarded.tidy.anonFiles) rfl rfl

theorem Guarded.event {input : Input} (running : d.status = .running) (event : Event d input d')
    (invariant : Invariant d) (spared : Spared fs₀.cwd d'.world.calls)
    (before : Spared fs₀.cwd d.world.calls → Guarded fs₀ d) : Guarded fs₀ d' := by
  have coherent := invariant.coherent (by simp [running]) (invariant.running running)
  cases event with
  | polled length allowed => exact ⟨(before spared).tidy, (before spared).names⟩
  | interrupted => exact before spared
  | pollFailed => exact ⟨(before spared).tidy, nofun⟩
  | @hungUp ans pfd here flagged =>
      have closes := hangUp_closes d pfd.fd
      rw [closes.calls] at spared
      have tidy := (before spared).tidy.closesOnly closes
      have names := ((before spared).names running).of_fields tidy closes.fs closes.calls
      exact ⟨tidy, fun _ => names.erase pfd.fd⟩
  | skipped here => exact ⟨(before spared).tidy, (before spared).names⟩
  | refused here listener => exact ⟨(before spared).tidy, nofun⟩
  | @admitted ans pfd port here listener listening room =>
      have guarded := before spared
      have tidy : Tidy fs₀ (d.welcome pfd.fd).world :=
        guarded.tidy.of_fields rfl rfl rfl rfl guarded.tidy.anonFiles
      obtain ⟨client, sock, blank, -⟩ := coherent.blank
      have names : Names fs₀ (d.welcome pfd.fd).states (d.welcome pfd.fd).world :=
        ((guarded.names running).of_fields tidy rfl rfl).insert (by simp [blank]) _
      exact ⟨tidy, fun _ => names⟩
  | overflowed here listener listening full =>
      exact ⟨(before spared).tidy.of_fields rfl rfl rfl rfl (before spared).tidy.anonFiles, nofun⟩
  | @woken ans pfd k st w here other conn chain rest =>
      have found := coherent.stateOf here other
      have tracked := (coherent.answered ans).tracks _ _ k found conn
      have names :=
        answered_names (before (spared.mono (Chain.calls_isPrefix chain).subset)) running ans
      have sound := Chain.sound chain tracked (names.sound found) spared
      exact ⟨sound.tidy, fun _ => names.wake sound⟩
  | @returned ans pfd k st w here other conn cut =>
      have found := coherent.stateOf here other
      have tracked := (coherent.answered ans).tracks _ _ k found conn
      rw [(returnFalse_fields _ w).2] at spared
      have names :=
        answered_names (before (spared.mono (cut.calls_isPrefix nofun).subset)) running ans
      exact ⟨(cut.tidy tracked (names.sound found) spared nofun).returnFalse _, nofun⟩
  | @failed ans pfd k w here other conn cut =>
      have found := coherent.stateOf here other
      have tracked := (coherent.answered ans).tracks _ _ k found conn
      have names :=
        answered_names (before (spared.mono (cut.calls_isPrefix nofun).subset)) running ans
      exact ⟨cut.tidy tracked (names.sound found) spared nofun, nofun⟩
  | @dangling ans pfd here other gone =>
      have found := coherent.stateOf here other
      obtain ⟨k, conn⟩ := coherent.conn _ _ found other
      exact absurd conn (gone k)

end Events

/-- Destinations are intact and temporary files private in every state of every run in which no
message names the temporary path of another transfer. -/
theorem reachable_guarded {inherited : List Bool} {fs : Fs} {dmsg : DaemonInitMessage} {d : Server}
    (reachable : Reachable step (start inherited fs dmsg) d)
    (spared : Spared fs.cwd d.world.calls) : Guarded fs d := by
  have guarded : Invariant d ∧ (Spared fs.cwd d.world.calls → Guarded fs d) := by
    refine Server.invariant reachable
      (I := fun d => Invariant d ∧ (Spared fs.cwd d.world.calls → Guarded fs d))
      ⟨reachable_invariant (.refl _), fun _ => ?_⟩ ?_
    · have tidy : Tidy fs (start inherited fs dmsg).world :=
        ⟨rfl, fun _ _ => .inl rfl, nofun, nofun, nofun⟩
      exact ⟨tidy, fun _ => ⟨tidy, by simp [start], by simp [start]⟩⟩
    · rintro d input d' running event ⟨invariant, before⟩
      exact ⟨invariant.event running event,
        fun spared => Guarded.event running event invariant spared before⟩
  exact guarded.2 spared

/-- **Destinations are intact in every state of every run** in which no message names the
temporary path of another transfer. -/
theorem reachable_tidy {inherited : List Bool} {fs : Fs} {dmsg : DaemonInitMessage} {d : Server}
    (reachable : Reachable step (start inherited fs dmsg) d)
    (spared : Spared fs.cwd d.world.calls) : Tidy fs d.world :=
  (reachable_guarded reachable spared).tidy

/-- **Publication is atomic.** At every moment of a run, whatever connections do and however
the daemon ends, a location that is not a temporary path shows what it showed before the run
or the contents of a whole regular-file message for it. Of each stream only the whole messages
have acted on their paths; the one a connection ends in has not. -/
theorem publication_atomic {inherited : List Bool} {fs : Fs} {dmsg : DaemonInitMessage}
    {d : Server} (reachable : Reachable step (start inherited fs dmsg) d)
    (spared : Spared fs.cwd d.world.calls) :
    (∀ m ∈ d.world.moments ++ [⟨d.world.fs, d.world.received⟩], ∀ loc,
      ¬ TempLoc fs.cwd d.world.calls loc → Intact fs m loc) ∧
    ∀ k, ∃ ms : List Message, d.world.received k =
        ms.flatMap Message.bytes ++ (phaseAfter (d.world.received k)).bytes ∧
      (phaseAfter (d.world.received k)).need ≠ 0 ∧
      finals (issuedBy k d.world.calls) <+: ms.map fun m => ⟨m.seq, m.op⟩ := by
  have tidy := reachable_tidy reachable spared
  constructor
  · intro m member loc outside
    rcases List.mem_append.1 member with earlier | now
    · exact tidy.moments m earlier loc outside
    · rw [List.mem_singleton.1 now]
      exact tidy.intact loc outside
  · intro k
    obtain ⟨ms, split⟩ := exists_messages (d.world.received k)
    refine ⟨ms, split.stream_eq, need_phaseAfter _, ?_⟩
    rw [← split.finals_eq]
    exact ((reachable_invariant reachable).prefixed k).filter _

/-! ## A sample run -/

/-- A file system with a directory `/tmp`. -/
def sampleFs : Fs where
  cwd := []
  entries loc := if loc = [[116, 109, 112]] then some (.dir 0) else none
  data _ := []
  nextIno := 0
  allocated loc ino entry := by split at entry <;> cases entry

/-- The header of a file `a` of two bytes. -/
def sampleHeader : Bytes :=
  DataMessage.encode ⟨0, 0⟩ { seq := 5, perms := 0, ftype := 1, pathLen := 1, fsize := 2 }

/-- A daemon for one connection. -/
def sampleStart : Server := start [true, true, true] sampleFs ⟨50000, 1⟩

/-- A daemon for two connections. -/
def pairStart : Server := start [true, true, true] sampleFs ⟨50000, 2⟩

/-- A connection is accepted, and the file arrives in several reads. -/
def sampleInputs : List Input :=
  [.poll [{ input := true }], .round {}, .round {}, .poll [{}, { input := true }], .round {},
    .round { reads := [.data sampleHeader, .retry, .data [97], .data [1], .data [2]] }]

theorem publication_atomic_sample :
    ∃ d, run step sampleStart sampleInputs = some d ∧ Spared sampleFs.cwd d.world.calls ∧
      d.world.fs.fileAt [[97]] = some [1, 2] ∧ ∀ m ∈ d.world.moments, Intact sampleFs m [[97]] := by
  have facts : ∀ d ∈ run step sampleStart sampleInputs, Spared sampleFs.cwd d.world.calls ∧
      d.world.fs.fileAt [[97]] = some [1, 2] ∧ ¬ TempLoc sampleFs.cwd d.world.calls [[97]] := by
    decide +kernel
  obtain ⟨d, reaches⟩ : ∃ d, run step sampleStart sampleInputs = some d :=
    Option.isSome_iff_exists.1 (by decide +kernel)
  obtain ⟨spared, shown, outside⟩ := facts d reaches
  have reachable : Reachable step (start [true, true, true] sampleFs ⟨50000, 1⟩) d :=
    ⟨sampleInputs, reaches⟩
  exact ⟨d, reaches, spared, shown, fun m member =>
    (publication_atomic reachable spared).1 m (List.mem_append_left _ member) _ outside⟩

end Enuwatch.Daemon

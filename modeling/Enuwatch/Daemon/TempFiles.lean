import Enuwatch.Daemon.Bounds

/-!
# What becomes of the temporary files

`create_anonfile` notes the name of every temporary file in `ANON_FILES`, `move_anonfile`
takes it out, and an `atexit` handler unlinks what is left. As long as the daemon runs,
`ANON_FILES` holds exactly the files that were made and not renamed, and all of them exist
(`Ledger`). When `daemon_main` returns, the handler removes them.

A fatal error does not run the handler, and `create_anonfile` notes a name only after
`ftruncate`. So a step leaves no file behind exactly when no `ftruncate`, `mmap` or `rename`
is refused in it, and nothing else is refused while a temporary file exists (`temp_files`).
-/

set_option autoImplicit false

namespace Enuwatch.Daemon

open Enuwatch.Lib Enuwatch.Net

/-- The temporary files after one more call: `mkstemp` makes one, `rename` takes it away. -/
def noteTemp (temps : List Bytes) (call : Call) : List Bytes :=
  match call.op, call.temp, call.ok with
  | .mkstemp, some temp, true => temps ++ [temp]
  | .rename _ _, some temp, true => temps.erase temp
  | _, _, _ => temps

/-- The temporary files that were made and not renamed. -/
def outstanding (calls : List Call) : List Bytes := calls.foldl noteTemp []

theorem outstanding_append (calls more : List Call) :
    outstanding (calls ++ more) = more.foldl noteTemp (outstanding calls) :=
  List.foldl_append

/-- The daemon has ended in a way of its own: it returned, or it raised a fatal error. -/
def Server.Ended (d : Server) : Prop := d.status = .returned ∨ d.status = .fatal

/-- `ANON_FILES` holds the temporary files that were made and not renamed, and none of them
is left when the daemon has ended. -/
structure TempsOk (d : Server) : Prop where
  exact : ∀ temp, temp ∈ d.world.anonFiles ↔ temp ∈ outstanding d.world.calls
  gone : d.Ended → ∀ temp ∈ outstanding d.world.calls,
    d.world.fs.fileAt (d.world.locate temp) = none

/-! ## The ledger -/

/-- `ANON_FILES` in a running daemon. -/
structure Ledger (w : World) : Prop where
  same : w.anonFiles = outstanding w.calls
  kept : ∀ temp ∈ w.anonFiles, ∃ ino, w.fs.entries (w.locate temp) = some (.file ino)
  nodup : (w.anonFiles.map w.locate).Nodup

/-- The ledger with one connection, among others that have the temporary files `taken`. -/
structure Shelf (taken : Bytes → Prop) (st : ConnectionState) (w : World) : Prop where
  ledger : Ledger w
  own : st.kind = .receiving → st.anonPath ∈ w.anonFiles
  others : ∀ temp, taken temp → temp ∈ w.anonFiles ∧ (st.kind = .receiving → temp ≠ st.anonPath)

section Ledger

variable {w w' : World}

theorem World.locate_congr (cwd : w'.fs.cwd = w.fs.cwd) : w'.locate = w.locate := by
  funext path
  rw [World.locate, cwd]
  rfl

/-- What happens beside the names does not matter. -/
theorem Ledger.congr (ledger : Ledger w) (anonFiles : w'.anonFiles = w.anonFiles)
    (calls : outstanding w'.calls = outstanding w.calls) (cwd : w'.fs.cwd = w.fs.cwd)
    (entries : ∀ temp ∈ w.anonFiles,
      w'.fs.entries (w.locate temp) = w.fs.entries (w.locate temp)) : Ledger w' := by
  have locate := World.locate_congr cwd
  refine ⟨by rw [anonFiles, calls, ledger.same], fun temp member => ?_, ?_⟩
  · rw [anonFiles] at member
    rw [locate, entries temp member]
    exact ledger.kept temp member
  · rw [anonFiles, locate]
    exact ledger.nodup

theorem Ledger.locate_injOn (ledger : Ledger w) {temp temp' : Bytes} (member : temp ∈ w.anonFiles)
    (member' : temp' ∈ w.anonFiles) (same : w.locate temp = w.locate temp') : temp = temp' :=
  List.inj_on_of_nodup_map ledger.nodup member member' same

/-- A free location is no temporary file's. -/
theorem Ledger.locate_ne (ledger : Ledger w) {loc : Loc} (free : w.fs.entries loc = none)
    {temp : Bytes} (member : temp ∈ w.anonFiles) : w.locate temp ≠ loc := by
  rintro rfl
  obtain ⟨ino, entry⟩ := ledger.kept temp member
  simp [free] at entry

/-- A new temporary file. -/
theorem Ledger.create (ledger : Ledger w) {temp : Bytes} (free : w.fs.CanCreate (w.locate temp))
    (anonFiles : w'.anonFiles = w.anonFiles ++ [temp])
    (calls : outstanding w'.calls = outstanding w.calls ++ [temp])
    (cwd : w'.fs.cwd = w.fs.cwd)
    (entries : w'.fs.entries = (w.fs.create (w.locate temp)).entries) : Ledger w' := by
  have locate := World.locate_congr cwd
  refine ⟨by rw [anonFiles, calls, ledger.same], ?_, ?_⟩
  · rw [anonFiles, locate, entries]
    refine List.forall_mem_append.2 ⟨fun old member => ?_, fun new member => ?_⟩
    · have apart := ledger.locate_ne free.2.1 member
      simpa [Fs.create, apart] using ledger.kept old member
    · obtain rfl := List.mem_singleton.1 member
      exact ⟨w.fs.nextIno, by simp [Fs.create]⟩
  · rw [anonFiles, locate, List.map_append, List.nodup_append]
    refine ⟨ledger.nodup, by simp, fun loc old loc' new => ?_⟩
    obtain ⟨name, member, rfl⟩ := List.mem_map.1 old
    rw [List.map_singleton, List.mem_singleton] at new
    rw [new]
    exact ledger.locate_ne free.2.1 member

/-- A temporary file is renamed. -/
theorem Ledger.rename (ledger : Ledger w) {temp : Bytes} (dst : Loc) (member : temp ∈ w.anonFiles)
    (anonFiles : w'.anonFiles = w.anonFiles.erase temp)
    (calls : outstanding w'.calls = (outstanding w.calls).erase temp)
    (cwd : w'.fs.cwd = w.fs.cwd)
    (entries : w'.fs.entries = (w.fs.rename (w.locate temp) dst).entries) : Ledger w' := by
  have locate := World.locate_congr cwd
  refine ⟨by rw [anonFiles, calls, ledger.same], ?_, ?_⟩
  · rw [anonFiles, locate, entries]
    intro other rest
    have names : w.anonFiles.Nodup := ledger.nodup.of_map _
    obtain ⟨different, old⟩ := names.mem_erase_iff.1 rest
    have notSrc : w.locate other ≠ w.locate temp := fun same =>
      different (ledger.locate_injOn old member same)
    unfold Fs.rename
    split
    · exact ledger.kept other old
    · by_cases there : w.locate other = dst
      · subst there
        simpa [notSrc] using ledger.kept temp member
      · simpa [notSrc, there] using ledger.kept other old
  · rw [anonFiles, locate]
    exact ledger.nodup.sublist ((List.erase_sublist).map _)

end Ledger

/-! ## Every move -/

section Moves

variable {taken : Bytes → Prop} {k : ℕ} {st st' : ConnectionState} {w w' : World}

@[simp] theorem World.mmap_anonFiles (w : World) (k : ℕ) (seq : UInt32) (temp : Bytes) (size : ℕ)
    (ok : Bool) : (w.mmap k seq temp size ok).anonFiles = w.anonFiles ++ [temp] := by
  unfold World.mmap
  split <;> rfl

theorem outstanding_mmap (w : World) (k : ℕ) (seq : UInt32) (temp : Bytes) (size : ℕ)
    (ok : Bool) : outstanding (w.mmap k seq temp size ok).calls = outstanding w.calls ++ [temp] := by
  rw [World.mmap_calls, World.ftruncate_calls]
  split <;> simp [outstanding_append, noteTemp]

/-- The connection is not in a transfer any more, or not yet. -/
theorem Shelf.idle (shelf : Shelf taken st w) (kind : st'.kind ≠ .receiving) : Shelf taken st' w :=
  ⟨shelf.ledger, fun bad => absurd bad kind,
    fun temp mine => ⟨(shelf.others temp mine).1, fun bad => absurd bad kind⟩⟩

theorem Shelf.opened (shelf : Shelf taken st w) {temp : Bytes}
    (free : w.fs.CanCreate (w.locate temp)) :
    Shelf taken (st.opened w.table.next w.fs.nextIno temp)
      (w.mmap k st.msg.seq temp st.msg.fsize.toNat true) := by
  refine ⟨shelf.ledger.create free (by simp) (outstanding_mmap ..) (by simp) (by simp),
    fun _ => by simp [ConnectionState.opened], fun other mine => ?_⟩
  obtain ⟨member, -⟩ := shelf.others other mine
  refine ⟨by simp [member], fun _ same => ?_⟩
  exact shelf.ledger.locate_ne free.2.1 member (congrArg w.locate same)

theorem Shelf.made (shelf : Shelf taken st w) {seq : UInt32} {path : Bytes} {mode : ℕ}
    (free : w.fs.CanCreate (w.locate path)) (fd : ℤ) :
    Shelf taken st.parsed.idle ((w.mkdir k seq path mode true).close fd) := by
  refine ⟨shelf.ledger.congr (by simp [World.mkdir]) ?_ (by simp) fun temp member => ?_,
    by rintro ⟨⟩,
    fun temp mine => ⟨?_, by rintro ⟨⟩⟩⟩
  · simp [outstanding_append, noteTemp]
  · have apart := shelf.ledger.locate_ne free.2.1 member
    simp [Fs.mkdir, apart]
  · simpa [World.mkdir] using (shelf.others temp mine).1

theorem Shelf.published (shelf : Shelf taken st w) {contents : Bytes}
    (kind : st.kind = .receiving) (fd : ℤ) :
    Shelf taken st.idle
      (({ w.rename k st.seq contents st.anonPath st.path true with
          anonFiles := w.anonFiles.erase st.anonPath } : World).close fd) := by
  refine ⟨shelf.ledger.rename (w.locate st.path) (shelf.own kind) (by simp) ?_ (by simp) (by simp),
    by rintro ⟨⟩,
    fun temp mine => ⟨?_, by rintro ⟨⟩⟩⟩
  · simp [outstanding_append, noteTemp]
  · obtain ⟨member, different⟩ := shelf.others temp mine
    simpa using (List.mem_erase_of_ne (different kind)).2 member

/-- **Every move keeps the ledger.** -/
theorem Shelf.move (shelf : Shelf taken st w) (move : Move k (st, w) (st', w')) :
    Shelf taken st' w' := by
  cases move with
  | arm => exact shelf.idle (by rintro ⟨⟩)
  | read block unused kind fits later =>
      have ledger : Ledger (w.receive k block unused
          ((targetOf st.kind).storeFs block st w.fs)) := by
        refine shelf.ledger.congr rfl rfl ?_ fun temp member => ?_
        · cases targetOf st.kind <;> simp [Target.storeFs]
        · cases targetOf st.kind <;> simp [Target.storeFs]
      have anonPath : (st.stored (targetOf st.kind) block).anonPath = st.anonPath := by
        cases targetOf st.kind <;> rfl
      have same : (st.stored (targetOf st.kind) block).kind = st.kind := by
        simp [ConnectionState.stored]
      refine ⟨ledger, fun receiving => ?_, fun temp mine => ?_⟩
      · rw [anonPath]
        exact shelf.own (same.symm.trans receiving)
      · rw [anonPath, same]
        exact shelf.others temp mine
  | header => exact shelf.idle (by rintro ⟨⟩)
  | opened temp kind full regular free => exact shelf.opened free
  | made kind full other free => exact shelf.made free _
  | published kind full can => exact shelf.published kind _

theorem Shelf.chain {s s' : ConnectionState × World} (chain : Chain k s s')
    (shelf : Shelf taken s.1 s.2) : Shelf taken s'.1 s'.2 := by
  induction chain with
  | refl => exact shelf
  | tail _ move ih => exact ih.move move

end Moves

/-! ## Every connection -/

/-- The ledger of a daemon: every transfer under way has a temporary file of its own. -/
structure Shelved (d : Server) : Prop where
  ledger : Ledger d.world
  own : ∀ x st, d.states.lookup x = some st → st.kind = .receiving →
    st.anonPath ∈ d.world.anonFiles
  apart : ∀ x y st st', x ≠ y → d.states.lookup x = some st → d.states.lookup y = some st' →
    st.kind = .receiving → st'.kind = .receiving → st.anonPath ≠ st'.anonPath

/-- The temporary files of the connections other than `x`. -/
def takenBeside (states : AList fun _ : ℕ => ConnectionState) (x : ℕ) (temp : Bytes) : Prop :=
  ∃ y st, y ≠ x ∧ states.lookup y = some st ∧ st.kind = .receiving ∧ st.anonPath = temp

namespace Shelved

variable {d d' : Server} {x : ℕ} {st : ConnectionState}

theorem shelf (shelved : Shelved d) (x : ℕ) :
    Shelf (takenBeside d.states x) (d.stateOf x) d.world := by
  refine ⟨shelved.ledger, fun receiving => ?_, ?_⟩
  · unfold Server.stateOf at receiving ⊢
    cases found : d.states.lookup x with
    | none => simp [found] at receiving
    | some st => exact shelved.own x st found (by simpa [found] using receiving)
  · rintro temp ⟨y, st, different, found, receiving, rfl⟩
    refine ⟨shelved.own y st found receiving, fun own => ?_⟩
    unfold Server.stateOf at own ⊢
    cases here : d.states.lookup x with
    | none => simp [here] at own
    | some st' =>
        exact shelved.apart y x st st' different found here receiving (by simpa [here] using own)

/-- The answers of a round are no part of the ledger. -/
theorem answered (shelved : Shelved d) (x : ℕ) (ans : Answers) :
    Shelf (takenBeside d.states x) (d.stateOf x) (d.answered ans) := by
  obtain ⟨ledger, own, others⟩ := shelved.shelf x
  exact ⟨ledger.congr rfl rfl rfl fun _ _ => rfl, own, others⟩

theorem insert (shelved : Shelved d) (states : d'.states = d.states.insert x st)
    (shelf : Shelf (takenBeside d.states x) st d'.world) : Shelved d' := by
  refine ⟨shelf.ledger, fun y st' found receiving => ?_,
    fun y z st₁ st₂ different found₁ found₂ receiving₁ receiving₂ => ?_⟩
  · rw [states] at found
    obtain ⟨rfl, rfl⟩ | ⟨other, found⟩ := lookup_insert_cases found
    · exact shelf.own receiving
    · exact (shelf.others _ ⟨y, st', other, found, receiving, rfl⟩).1
  · rw [states] at found₁ found₂
    obtain ⟨rfl, rfl⟩ | ⟨other₁, before₁⟩ := lookup_insert_cases found₁
    · obtain ⟨rfl, rfl⟩ | ⟨other₂, before₂⟩ := lookup_insert_cases found₂
      · exact absurd rfl different
      · exact ((shelf.others _ ⟨z, st₂, other₂, before₂, receiving₂, rfl⟩).2 receiving₁).symm
    · obtain ⟨rfl, rfl⟩ | ⟨other₂, before₂⟩ := lookup_insert_cases found₂
      · exact (shelf.others _ ⟨y, st₁, other₁, before₁, receiving₁, rfl⟩).2 receiving₂
      · exact shelved.apart y z st₁ st₂ different before₁ before₂ receiving₁ receiving₂

/-- The ledger carried to a state with the same names and fewer connections. -/
theorem congr (shelved : Shelved d)
    (states : ∀ x st, d'.states.lookup x = some st → d.states.lookup x = some st)
    (anonFiles : d'.world.anonFiles = d.world.anonFiles)
    (calls : d'.world.calls = d.world.calls) (fs : d'.world.fs = d.world.fs) : Shelved d' := by
  refine ⟨shelved.ledger.congr anonFiles (by rw [calls]) (by rw [fs]) fun _ _ => by rw [fs],
    fun x st found receiving => ?_, fun x y st st' different found found' => ?_⟩
  · rw [anonFiles]
    exact shelved.own x st (states x st found) receiving
  · exact shelved.apart x y st st' different (states x st found) (states y st' found')

theorem welcome (shelved : Shelved d) (client sock : ℤ)
    (states : d'.states = d.states.insert x { d.stateOf x with clientFd := client, sockFd := sock })
    (anonFiles : d'.world.anonFiles = d.world.anonFiles)
    (calls : d'.world.calls = d.world.calls) (fs : d'.world.fs = d.world.fs) : Shelved d' := by
  obtain ⟨ledger, own, others⟩ := shelved.shelf x
  refine shelved.insert states ⟨?_, fun receiving => ?_, fun temp mine => ?_⟩
  · exact ledger.congr anonFiles (by rw [calls]) (by rw [fs]) fun _ _ => by rw [fs]
  · rw [anonFiles]
    exact own receiving
  · rw [anonFiles]
    exact others temp mine

theorem event (shelved : Shelved d) {input : Input} (event : Event d input d')
    (going : d'.status = .running ∨ d'.status = .undefined) : Shelved d' := by
  cases event with
  | polled | interrupted | skipped => exact shelved.congr (fun _ _ => id) rfl rfl rfl
  | pollFailed | refused | returned | dangling | failed => simp [Server.returnFalse] at going
  | @hungUp ans pfd here flagged =>
      have closes := hangUp_closes d pfd.fd
      exact shelved.congr (fun _ _ => lookup_of_hangUp) closes.anonFiles closes.calls closes.fs
  | admitted => exact shelved.welcome _ _ rfl rfl rfl rfl
  | overflowed =>
      exact shelved.welcome _ (d.stateOf d.world.table.next).sockFd rfl rfl rfl rfl
  | @woken ans pfd k st w here other conn chain rest =>
      exact shelved.insert rfl (Shelf.chain chain (shelved.answered pfd.fd ans))

end Shelved

theorem reachable_shelved {inherited : List Bool} {fs : Fs} {dmsg : DaemonInitMessage} {d : Server}
    (reachable : Reachable step (start inherited fs dmsg) d) (running : d.status = .running) :
    Shelved d := by
  refine Server.invariant (I := fun d => d.status = .running → Shelved d) reachable
    (fun _ => ⟨⟨rfl, by simp [start], List.nodup_nil⟩, ?_, ?_⟩) ?_ running
  · simp [start]
  · simp [start]
  · exact fun d input d' running event shelved going => (shelved running).event event (.inl going)

/-! ## Ending -/

section Ending

variable {d d' : Server} {w w' : World}

theorem Ledger.tempsOk (ledger : Ledger d.world) (going : ¬ d.Ended) : TempsOk d :=
  ⟨fun temp => by rw [ledger.same], fun ended => absurd ended going⟩

/-- A fatal error leaves no temporary file behind exactly when there is none. -/
theorem Ledger.tempsOk_iff (ledger : Ledger d.world) (fatal : d.status = .fatal) :
    TempsOk d ↔ d.world.anonFiles = [] := by
  constructor
  · intro ok
    refine List.eq_nil_iff_forall_not_mem.2 fun temp member => ?_
    obtain ⟨ino, entry⟩ := ledger.kept temp member
    have gone := ok.gone (.inr fatal) temp ((ok.exact temp).1 member)
    simp [Fs.fileAt, entry] at gone
  · intro empty
    have none : outstanding d.world.calls = [] := by rw [← ledger.same, empty]
    exact ⟨fun temp => by rw [ledger.same], fun _ temp member => by simp [none] at member⟩

theorem fileAt_unlink_self (fs : Fs) (loc : Loc) : (fs.unlink loc).fileAt loc = none := by
  unfold Fs.unlink
  split
  · simp [Fs.fileAt]
  · rename_i other
    unfold Fs.fileAt
    split
    · rename_i ino here
      exact absurd here (other ino)
    · rfl

/-- The `atexit` handler removes the files in `ANON_FILES`. -/
theorem unlinkAnonFiles_gone (w : World) :
    (unlinkAnonFiles w).anonFiles = w.anonFiles ∧ ∀ temp ∈ w.anonFiles,
      (unlinkAnonFiles w).fs.fileAt ((unlinkAnonFiles w).locate temp) = none := by
  -- The induction is on what is still to be unlinked; what is gone stays gone.
  have unlinked : ∀ (temps : List Bytes) (w : World),
      let w' := temps.foldl (fun w path => w.commit (w.fs.unlink (w.locate path))) w
      w'.anonFiles = w.anonFiles ∧ w'.fs.cwd = w.fs.cwd ∧
        ∀ loc, (w.fs.fileAt loc = none ∨ ∃ temp ∈ temps, loc = w.locate temp) →
          w'.fs.fileAt loc = none := by
    intro temps
    induction temps with
    | nil => exact fun w => ⟨rfl, rfl, fun loc gone => by simpa using gone⟩
    | cons path temps ih =>
        intro w
        obtain ⟨anonFiles, cwd, gone⟩ := ih (w.commit (w.fs.unlink (w.locate path)))
        refine ⟨anonFiles, by simpa [World.commit] using cwd, fun loc before => gone loc ?_⟩
        by_cases here : loc = w.locate path
        · subst here
          exact .inl (fileAt_unlink_self ..)
        · rcases before with before | ⟨temp, member, rfl⟩
          · exact .inl ((Fs.fileAt_unlink_ne here).trans before)
          · rcases List.mem_cons.1 member with rfl | later
            · exact absurd rfl here
            · exact .inr ⟨temp, later, by simp [World.locate, World.commit]⟩
  obtain ⟨anonFiles, cwd, gone⟩ := unlinked w.anonFiles w
  exact ⟨anonFiles, fun temp member => gone _ (.inr ⟨temp, member, congrArg (locate · temp) cwd⟩)⟩

/-- A return leaves no temporary file behind. -/
theorem Ledger.returnFalse (ledger : Ledger w) (d : Server) : TempsOk (d.returnFalse w) := by
  have closes := destroyAll_closes d.states w
  obtain ⟨anonFiles, gone⟩ := unlinkAnonFiles_gone (destroyAll d.states w)
  rw [closes.anonFiles] at anonFiles gone
  have calls := (returnFalse_fields d w).2
  refine ⟨fun temp => ?_, fun _ temp member => ?_⟩
  · rw [calls, ← ledger.same]
    exact iff_of_eq (congrArg (temp ∈ ·) anonFiles)
  · rw [calls, ← ledger.same] at member
    exact gone temp member

end Ending

/-! ## What is refused -/

/-- The calls that a transfer makes on the temporary file it has. -/
def FsOp.onTemp : FsOp → Bool
  | .ftruncate _ => true
  | .mmap _ => true
  | .rename _ _ => true
  | _ => false

/-- A call of this wake-up was refused; when it is not on a temporary file, it is the only
call of the wake-up. -/
def Refuses (w w' : World) : Prop :=
  ∃ call ∈ w'.calls, call.ok = false ∧ (call.op.onTemp = false → w'.calls = w.calls ++ [call])

theorem Refuses.of_last {w w' : World} {before : List Call} {call : Call}
    (calls : w'.calls = before ++ [call]) (refused : call.ok = false)
    (only : call.op.onTemp = false → before = w.calls) : Refuses w w' :=
  ⟨call, by simp [calls], refused, fun early => by rw [calls, only early]⟩

section Refuses

variable {k : ℕ} {ans : Answers} {st : ConnectionState} {w w₀ : World}

theorem advance_calls (target : Target) :
    wp (advance k target st) (fun _ w' => w'.calls = w.calls) (fun e _ => e ≠ .fatal) w := by
  simp only [advance, wp_bind, wp_get]
  split
  · rintro ⟨⟩
  · simp only [wp_bind, wp_set]
    split <;> rfl

theorem headerP1_calls :
    wp (headerP1 k st) (fun _ w' => w'.calls = w.calls) (fun e _ => e ≠ .fatal) w := by
  unfold headerP1
  split
  · rw [wp_bind]
    refine wp_mono (advance_calls .buf) ?_ fun _ _ => id
    rintro ⟨p, st'⟩ w' calls
    cases p with
    | fail => rintro ⟨⟩
    | part => exact calls
    | done => exact calls
  · rfl

theorem openTransfer_refuses {msg : DataMessage} (calls : w.calls = w₀.calls) :
    wp (openTransfer k msg ans st) (fun _ _ => True) (fun e w' => e = .fatal → Refuses w₀ w') w := by
  simp only [openTransfer, wp_bind]
  refine wp_createAnonfile ?_ ?_ ?_
  · exact fun _ => .of_last (World.mkstemp_calls ..) rfl fun _ => calls
  · exact fun _ _ => .of_last (World.ftruncate_calls ..) rfl (by rintro ⟨⟩)
  · intro free
    split
    · simp only [wp_bind, wp_get, wp_pure]
      exact wp_issue (fun _ => trivial) fun _ _ => .of_last (World.issue_calls ..) rfl (by rintro ⟨⟩)
    · trivial

theorem makeDirectory_refuses (calls : w.calls = w₀.calls) :
    wp (makeDirectory k ans st) (fun _ _ => True) (fun e w' => e = .fatal → Refuses w₀ w') w := by
  simp only [makeDirectory, ConnectionState.reset, wp_bind, wp_get]
  exact wp_issue (fun _ => trivial) fun _ _ => .of_last (World.issue_calls ..) rfl fun _ => calls

theorem headerP2_refuses (calls : w.calls = w₀.calls) :
    wp (headerP2 k ans st) (fun _ _ => True) (fun e w' => e = .fatal → Refuses w₀ w') w := by
  unfold headerP2
  split
  · rw [wp_bind]
    refine wp_mono (advance_calls .buf) ?_ fun _ _ other fatal => absurd fatal other
    rintro ⟨p, st'⟩ w' same
    have calls' : w'.calls = w₀.calls := same.trans calls
    cases p with
    | fail => rintro ⟨⟩
    | part => trivial
    | done =>
        rw [wp_ite]
        exact ⟨fun _ => openTransfer_refuses calls', fun _ => makeDirectory_refuses calls'⟩
  · trivial

theorem receiving_refuses :
    wp (receiving k ans st) (fun _ _ => True) (fun e w' => e = .fatal → Refuses w₀ w') w := by
  unfold receiving
  split
  · rw [wp_bind]
    refine wp_mono (advance_calls .map) ?_ fun _ _ other fatal => absurd fatal other
    rintro ⟨p, st'⟩ w' same
    cases p with
    | fail => rintro ⟨⟩
    | part => trivial
    | done =>
        simp only [wp_bind, wp_get, moveAnonfile, ConnectionState.reset]
        exact wp_issue (fun _ => trivial) fun _ _ => .of_last (World.issue_calls ..) rfl (by rintro ⟨⟩)
  · trivial

theorem wakeUp_refuses :
    wp (wakeUp k ans st) (fun _ _ => True) (fun e w' => e = .fatal → Refuses w w') w := by
  simp only [wakeUp, wp_bind]
  refine wp_mono headerP1_calls ?_ fun _ _ other fatal => absurd fatal other
  intro st₁ w₁ calls
  refine wp_mono (headerP2_refuses calls) ?_ fun _ _ => id
  intro st₂ w₂ _
  exact receiving_refuses

end Refuses

/-- A listening socket is readable and no connection is accepted from it: there are too many,
`accept` fails, or the descriptor is no listening socket any more. -/
def Server.TurnsAway (d : Server) (ans : Answers) : Prop :=
  ∃ pfd, d.fds[d.idx]? = some pfd ∧ (pfd.revents.hup || pfd.revents.err) = false ∧
    pfd.revents.input = true ∧ pfd.fd ∈ d.socketFds ∧
      (d.nConns * 2 < d.fds.length ∨ ans.accept = false ∨
        ∀ port, d.world.table.get pfd.fd ≠ some (.listening port))

/-- `poll` or `accept` is refused. -/
def TurnedDown (d : Server) (input : Input) : Prop :=
  input = .pollFailed ∨ ∃ ans, input = .round ans ∧ d.TurnsAway ans

/-- How a step can be fatal. -/
inductive Fate (d : Server) (input : Input) (d' : Server) : Prop
  | going (alive : d'.status ≠ .fatal) (granted : ¬ TurnedDown d input)
  | turnedDown (fatal : d'.status = .fatal) (world : d'.world = d.world)
      (refused : TurnedDown d input)
  | call {ans : Answers} {x k : ℕ} (fatal : d'.status = .fatal)
      (refuses : Refuses (d.answered ans) d'.world)
      (cut : Cut k (d.stateOf x, d.answered ans) .fatal d'.world)

section Fate

variable {d d' : Server} {pfd : PollFd} {ans : Answers} {input : Input}

theorem not_turnedDown_round (here : d.fds[d.idx]? = some pfd)
    (granted : (pfd.revents.hup || pfd.revents.err) = false → pfd.revents.input = true →
      pfd.fd ∈ d.socketFds → d.fds.length ≤ d.nConns * 2 ∧ ans.accept = true ∧
        ∃ port, d.world.table.get pfd.fd = some (.listening port)) :
    ¬ TurnedDown d (.round ans) := by
  rintro (bad | ⟨_, ⟨⟩, pfd', here', quiet, ready, listener, refused⟩)
  · cases bad
  · obtain rfl := Option.some.inj (here.symm.trans here')
    obtain ⟨room, accepted, port, listening⟩ := granted quiet ready listener
    rcases refused with full | failed | closed
    · omega
    · simp [accepted] at failed
    · exact closed port listening

theorem acceptClient_fate (running : d.status = .running) (here : d.fds[d.idx]? = some pfd)
    (quiet : (pfd.revents.hup || pfd.revents.err) = false) (ready : pfd.revents.input = true)
    (listener : pfd.fd ∈ d.socketFds) (offered : d.acceptClient pfd.fd ans = d') :
    Fate d (.round ans) d' := by
  have granted : d.fds.length ≤ d.nConns * 2 → ans.accept = true →
      (∃ port, d.world.table.get pfd.fd = some (.listening port)) → ¬ TurnedDown d (.round ans) :=
    fun few accept listening => not_turnedDown_round here fun _ _ _ => ⟨few, accept, listening⟩
  cases acceptClient_inv offered with
  | crowded many =>
      exact .turnedDown rfl rfl (.inr ⟨ans, rfl, pfd, here, quiet, ready, listener, .inl many⟩)
  | refused _ refused =>
      refine .turnedDown rfl rfl (.inr ⟨ans, rfl, pfd, here, quiet, ready, listener, .inr ?_⟩)
      cases accept : ans.accept with
      | false => exact .inl rfl
      | true => exact .inr (refused accept)
  | admitted accept listening room =>
      exact .going (by simp [Server.welcome, running]) (granted room.le accept ⟨_, listening⟩)
  | overflowed accept listening full =>
      exact .going (by rintro ⟨⟩) (granted full.le accept ⟨_, listening⟩)

theorem readable_fate (running : d.status = .running) (settled : Settled d)
    (here : d.fds[d.idx]? = some pfd) (other : pfd.fd ∉ d.socketFds)
    (returned : d.readable pfd.fd ans = some d') : Fate d (.round ans) d' := by
  have granted : ¬ TurnedDown d (.round ans) := not_turnedDown_round here
    fun _ _ listener => absurd listener other
  obtain ⟨sane, rest⟩ := settled.stateOf pfd.fd
  have moves (k : ℕ) : wp (wakeUp k ans (d.stateOf pfd.fd)) _ _ (d.answered ans) :=
    wp_and (wakeUp_moves sane rest) wakeUp_refuses
  cases readable_inv returned with
  | woken => exact .going (by simp [running]) granted
  | returned => exact .going (by rintro ⟨⟩) granted
  | failed conn outcome =>
      obtain ⟨cut, refuses⟩ := (wp_error outcome).1 (moves _)
      exact .call rfl (refuses rfl) cut
  | dangling => exact .going (by rintro ⟨⟩) granted

theorem visit_fate (running : d.status = .running) (settled : Settled d)
    (here : d.fds[d.idx]? = some pfd) (visited : d.visit pfd ans = some d') :
    Fate d (.round ans) d' := by
  cases visit_inv visited with
  | hungUp flagged =>
      refine .going (by simp [Server.hangUp, running]) (not_turnedDown_round here ?_)
      intro quiet
      simp [quiet] at flagged
  | skipped _ idle =>
      refine .going (by simp [running]) (not_turnedDown_round here ?_)
      intro _ ready
      simp [ready] at idle
  | offered quiet ready listener offered =>
      exact acceptClient_fate running here quiet ready listener offered
  | read _ _ other read => exact readable_fate running settled here other read

theorem step_fate (settled : Settled d) (stepped : step d input = some d') : Fate d input d' := by
  obtain ⟨running, kind⟩ := step_inv stepped
  cases kind with
  | polled => exact .going (by simp [running]) (by simp [TurnedDown])
  | interrupted => exact .going (by simp [running]) (by simp [TurnedDown])
  | pollFailed => exact .turnedDown rfl rfl (.inl rfl)
  | round here visited => exact visit_fate running settled here visited

end Fate

/-! ## Every step of every run -/

/-- The calls that the kernel refuses when the daemon takes the step with these answers. A refused
call is fatal, so a daemon that runs has none from before. -/
def Server.refused (d : Server) (input : Input) : List Call :=
  match step d input with
  | some d' => d'.world.calls.filter fun call => !call.ok
  | none => []

theorem mem_refused {d d' : Server} {input : Input} {call : Call}
    (stepped : step d input = some d') :
    call ∈ d.refused input ↔ call ∈ d'.world.calls ∧ call.ok = false := by
  simp [Server.refused, stepped]

/-- No call on a temporary file is refused in the step, and nothing is refused in it while
`ANON_FILES` is not empty. -/
structure CleanStep (d : Server) (input : Input) : Prop where
  onTemp : ∀ call ∈ d.refused input, call.op.onTemp = false
  empty : TurnedDown d input ∨ (∃ call, call ∈ d.refused input) → d.world.anonFiles = []

theorem noteTemp_refused {call : Call} (refused : call.ok = false) (temps : List Bytes) :
    noteTemp temps call = temps := by
  unfold noteTemp
  split
  · simp_all
  · simp_all
  · rfl

section Steps

variable {taken : Bytes → Prop} {k : ℕ} {st : ConnectionState} {w w' : World} {d d' : Server}

/-- A refused call leaves the ledger as it is, or a temporary file behind. -/
theorem Shelf.abort (shelf : Shelf taken st w) (abort : Abort k (st, w) .fatal w') :
    (∃ call, w'.calls = w.calls ++ [call] ∧ call.ok = false ∧ call.op.onTemp = false ∧
      Ledger w') ∨
    (∃ before call, w'.calls = before ++ [call] ∧ call.ok = false ∧ call.op.onTemp = true) ∧
      ∃ temp ∈ outstanding w'.calls, (w'.fs.fileAt (w'.locate temp)).isSome := by
  have created : ∀ {w' : World} {temp : Bytes}, w'.fs.cwd = w.fs.cwd →
      w'.fs.entries = (w.fs.create (w.locate temp)).entries →
      (w'.fs.fileAt (w'.locate temp)).isSome := by
    intro w' temp cwd entries
    have locate : w'.locate temp = w.locate temp := congrArg (locate · temp) cwd
    simp [Fs.fileAt, locate, entries, Fs.create]
  cases abort with
  | mkstemp temp =>
      exact .inl ⟨_, World.mkstemp_calls .., rfl, rfl, shelf.ledger.congr rfl
        (by simp [outstanding_append, noteTemp]) rfl fun _ _ => rfl⟩
  | mkdir =>
      exact .inl ⟨_, World.mkdir_calls .., rfl, rfl, shelf.ledger.congr rfl
        (by simp [outstanding_append, noteTemp]) rfl fun _ _ => rfl⟩
  | ftruncate temp =>
      refine .inr ⟨⟨_, _, World.ftruncate_calls .., rfl, rfl⟩, temp, ?_, created rfl rfl⟩
      simp [outstanding_append, noteTemp]
  | mmap temp kind full regular free some =>
      have calls := World.mmap_calls w k st.msg.seq temp st.msg.fsize.toNat false
      rw [if_pos some] at calls
      refine .inr ⟨⟨_, _, calls, rfl, rfl⟩, temp, ?_, created (by simp) (by simp)⟩
      simp [outstanding_mmap, -World.mmap_calls]
  | rename kind full =>
      obtain ⟨ino, entry⟩ := shelf.ledger.kept _ (shelf.own kind)
      refine .inr ⟨⟨_, _, World.rename_calls .., rfl, rfl⟩, st.anonPath, ?_, ?_⟩
      · simpa [outstanding_append, noteTemp, ← shelf.ledger.same] using shelf.own kind
      · have found : (w.fs.fileAt (w.locate st.anonPath)).isSome := by simp [Fs.fileAt, entry]
        simpa [World.locate] using found

/-- A refused call in a wake-up. -/
theorem Shelved.refused (shelved : Shelved d) (unfailed : Unfailed d.world) {ans : Answers}
    {input : Input} {x : ℕ} (stepped : step d input = some d') (fatal : d'.status = .fatal)
    (refuses : Refuses (d.answered ans) d'.world)
    (cut : Cut k (d.stateOf x, d.answered ans) .fatal d'.world) :
    TempsOk d' ↔ CleanStep d input := by
  obtain ⟨call, member, refused, only⟩ := refuses
  obtain ⟨⟨mid, wmid⟩, chain, abort⟩ := cut
  have before : Unfailed wmid := Chain.unfailed chain (s := (d.stateOf x, d.answered ans)) unfailed
  rcases (Shelf.chain chain (shelved.answered x ans)).abort abort with
    ⟨last, calls, failed, early, after⟩ | ⟨⟨rest, last, calls, failed, late⟩, temp, left, found⟩
  · -- The refused call is the only call of the wake-up.
    have unique : ∀ call ∈ d'.world.calls, call.ok = false → call = last := by
      intro other here bad
      rw [calls] at here
      rcases List.mem_append.1 here with old | new
      · simp [before other old] at bad
      · exact List.mem_singleton.1 new
    obtain rfl := unique call member refused
    have same : d'.world.anonFiles = d.world.anonFiles := by
      rw [after.same, only early, outstanding_append]
      exact (noteTemp_refused refused _).trans shelved.ledger.same.symm
    rw [after.tempsOk_iff fatal, same]
    constructor
    · refine fun empty => ⟨fun other listed => ?_, fun _ => empty⟩
      obtain ⟨here, bad⟩ := (mem_refused stepped).1 listed
      exact unique other here bad ▸ early
    · exact fun clean => clean.empty (.inr ⟨call, (mem_refused stepped).2 ⟨member, refused⟩⟩)
  · constructor
    · intro ok
      simp [ok.gone (.inr fatal) temp left] at found
    · intro clean
      have contra := clean.onTemp last ((mem_refused stepped).2 ⟨by simp [calls], failed⟩)
      simp [late] at contra

/-- A step that is not fatal leaves no temporary file behind. -/
theorem Shelved.tempsOk (shelved : Shelved d) {input : Input} (event : Event d input d')
    (running : d.status = .running) (alive : d'.status ≠ .fatal) : TempsOk d' := by
  by_cases going : d'.status = .running ∨ d'.status = .undefined
  · refine (shelved.event event going).ledger.tempsOk ?_
    rcases going with going | going <;> simp [Server.Ended, going]
  · cases event with
    | polled | interrupted | skipped | admitted | hungUp | woken =>
        exact absurd (.inl running) going
    | overflowed => exact absurd (.inr rfl) going
    | pollFailed | refused | failed => exact absurd rfl alive
    | @returned ans pfd k st w here other conn cut =>
        obtain ⟨⟨mid, wmid⟩, chain, abort⟩ := cut
        cases abort with
        | read block unused kind short later failed =>
            have shelf := Shelf.chain chain (shelved.answered pfd.fd ans)
            exact (shelf.move (.read (k := k) block unused kind short.le later)).ledger.returnFalse _
    | dangling => exact shelved.ledger.returnFalse _

/-- **As long as the daemon runs, `ANON_FILES` holds the temporary files that were made and not
renamed; a step keeps that and leaves none behind when it ends the daemon exactly when no call
on a temporary file is refused in it and nothing is refused while there is one.** -/
theorem temp_files {inherited : List Bool} {fs : Fs} {dmsg : DaemonInitMessage}
    (reachable : Reachable step (start inherited fs dmsg) d) :
    (d.status = .running → TempsOk d) ∧
      ∀ input d', step d input = some d' → (TempsOk d' ↔ CleanStep d input) := by
  constructor
  · intro running
    exact (reachable_shelved reachable running).ledger.tempsOk (by simp [Server.Ended, running])
  · intro input d' stepped
    have settled := reachable_settled reachable
    obtain ⟨running, event, -⟩ := step_event settled stepped
    have shelved := reachable_shelved reachable running
    have unfailed := (reachable_invariant reachable).running running
    cases step_fate settled stepped with
    | going alive granted =>
        have unfailed' := event.unfailed unfailed alive
        have none_ : ∀ call, call ∉ d.refused input := by
          intro call listed
          obtain ⟨member, bad⟩ := (mem_refused stepped).1 listed
          simp [unfailed' call member] at bad
        refine iff_of_true (shelved.tempsOk event running alive)
          ⟨fun call listed => absurd listed (none_ call), ?_⟩
        rintro (refused | ⟨call, listed⟩)
        · exact absurd refused granted
        · exact absurd listed (none_ call)
    | turnedDown fatal world refused =>
        have ledger : Ledger d'.world := world ▸ shelved.ledger
        rw [ledger.tempsOk_iff fatal, world]
        constructor
        · intro empty
          refine ⟨fun call listed => ?_, fun _ => empty⟩
          obtain ⟨member, bad⟩ := (mem_refused stepped).1 listed
          rw [world] at member
          simp [unfailed call member] at bad
        · exact fun clean => clean.empty (.inl refused)
    | call fatal refuses cut => exact shelved.refused unfailed stepped fatal refuses cut

end Steps

/-- The temporary file of the sample transfer while half of it has arrived. -/
theorem temp_files_sample :
    ∃ d, run step sampleStart midwayInputs = some d ∧
      outstanding d.world.calls = [({} : Answers).temp] ∧ TempsOk d := by
  have facts : ∀ d ∈ run step sampleStart midwayInputs,
      d.status = .running ∧ outstanding d.world.calls = [({} : Answers).temp] := by decide +kernel
  obtain ⟨d, reaches⟩ : ∃ d, run step sampleStart midwayInputs = some d :=
    Option.isSome_iff_exists.1 (by decide +kernel)
  obtain ⟨running, left⟩ := facts d reaches
  have reachable : Reachable step (start [true, true, true] sampleFs ⟨50000, 1⟩) d :=
    ⟨midwayInputs, reaches⟩
  exact ⟨d, reaches, left, (temp_files reachable).1 running⟩

/-- The temporary file stays when `poll` fails in the middle of the sample transfer. -/
theorem temp_left_behind :
    ∃ d, run step sampleStart (midwayInputs ++ [.pollFailed]) = some d ∧ d.status = .fatal ∧
      outstanding d.world.calls = [({} : Answers).temp] ∧
      d.world.fs.fileAt (d.world.locate ({} : Answers).temp) = some [1, 0] ∧ ¬ TempsOk d := by
  have facts : ∀ d ∈ run step sampleStart (midwayInputs ++ [.pollFailed]), d.status = .fatal ∧
      outstanding d.world.calls = [({} : Answers).temp] ∧
      d.world.fs.fileAt (d.world.locate ({} : Answers).temp) = some [1, 0] := by decide +kernel
  obtain ⟨d, reaches⟩ : ∃ d, run step sampleStart (midwayInputs ++ [.pollFailed]) = some d :=
    Option.isSome_iff_exists.1 (by decide +kernel)
  obtain ⟨fatal, left, found⟩ := facts d reaches
  refine ⟨d, reaches, fatal, left, found, fun ok => ?_⟩
  have gone := ok.gone (.inr fatal) ({} : Answers).temp (by simp [left])
  simp [found] at gone

end Enuwatch.Daemon

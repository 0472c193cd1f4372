import Enuwatch.Daemon.Messages
import Enuwatch.Daemon.Invariant

/-!
# Publication of files

A transfer writes to a temporary file that nobody else can reach: one name refers to its
inode, and no other transfer has that name (`Fs.Private`). The name of a destination is touched
only by the `rename` that ends a transfer. What a destination shows is therefore what it
showed before the run or the contents of a whole message (`Intact`), at every moment and not
only between calls.

This rests on one assumption about the messages, that none of them names the temporary path
of another transfer (`Spared`). `Sound` is the invariant of one connection among others, and
every move keeps it (`Sound.move`).
-/

set_option autoImplicit false

namespace Enuwatch.Daemon

open Enuwatch.Lib Enuwatch.Net

/-- A temporary file was made at this location. -/
def TempLoc (cwd : Loc) (calls : List Call) (loc : Loc) : Prop :=
  ∃ call ∈ calls, call.op = .mkstemp ∧ call.ok = true ∧ call.temp.map (locate cwd) = some loc

instance (cwd : Loc) (calls : List Call) (loc : Loc) : Decidable (TempLoc cwd calls loc) :=
  inferInstanceAs (Decidable (∃ call ∈ calls, _ ∧ _ ∧ _))

/-- The destination of a `rename`. -/
def FsOp.renamed : FsOp → Option Bytes
  | .rename path _ => some path
  | _ => none

/-- No message names the temporary path of another transfer. -/
def Spared (cwd : Loc) (calls : List Call) : Prop :=
  ∀ call ∈ calls, ∀ path ∈ call.op.renamed, TempLoc cwd calls (locate cwd path) →
    call.temp.map (locate cwd) = some (locate cwd path)

instance (cwd : Loc) (calls : List Call) : Decidable (Spared cwd calls) :=
  inferInstanceAs (Decidable (∀ call ∈ calls, ∀ path ∈ call.op.renamed, _ → _))

theorem TempLoc.mono {cwd : Loc} {calls calls' : List Call} {loc : Loc}
    (temp : TempLoc cwd calls loc) (sub : calls ⊆ calls') : TempLoc cwd calls' loc := by
  obtain ⟨call, member, rest⟩ := temp
  exact ⟨call, sub member, rest⟩

theorem Spared.mono {cwd : Loc} {calls calls' : List Call} (spared : Spared cwd calls')
    (sub : calls ⊆ calls') : Spared cwd calls :=
  fun call member path renamed named => spared call (sub member) path renamed (named.mono sub)

/-- A regular-file message for this location, with these contents, has arrived in full. -/
def FullyReceived (cwd : Loc) (stream : Bytes) (loc : Loc) (contents : Bytes) : Prop :=
  ∃ (ms : List Message) (rest : Bytes), stream = ms.flatMap Message.bytes ++ rest ∧
    ∃ m ∈ ms, isRegular m.hdr ∧ locate cwd m.path = loc ∧ m.contents = contents

/-- The contents at a location are those from before the run, or a whole message's. -/
def Intact (fs₀ : Fs) (m : Moment) (loc : Loc) : Prop :=
  m.fs.fileAt loc = fs₀.fileAt loc ∨
    ∃ k contents, m.fs.fileAt loc = some contents ∧
      FullyReceived fs₀.cwd (m.received k) loc contents

theorem FullyReceived.mono {cwd : Loc} {stream more : Bytes} {loc : Loc} {contents : Bytes}
    (received : FullyReceived cwd stream loc contents) :
    FullyReceived cwd (stream ++ more) loc contents := by
  obtain ⟨ms, rest, rfl, found⟩ := received
  exact ⟨ms, rest ++ more, by rw [List.append_assoc], found⟩

/-- A stream that asks for a `rename` has delivered the message it belongs to. -/
theorem fullyReceived_of_issued {cwd : Loc} {stream path contents : Bytes} {seq : UInt32}
    (issued : ⟨seq, .rename path contents⟩ ∈ issuedAfter stream) :
    FullyReceived cwd stream (locate cwd path) contents := by
  obtain ⟨ms, split⟩ := exists_messages stream
  have final : ⟨seq, .rename path contents⟩ ∈ finals (issuedAfter stream) :=
    List.mem_filter.2 ⟨issued, rfl⟩
  rw [split.finals_eq, List.mem_map] at final
  obtain ⟨m, member, same⟩ := final
  have op : m.op = .rename path contents := congrArg Issued.op same
  refine ⟨ms, _, split.stream_eq, m, member, ?_⟩
  unfold Message.op at op
  split at op
  · rename_i regular
    cases op
    exact ⟨regular, rfl, rfl⟩
  · cases op

/-- What can be said of the world alone. -/
structure Tidy (fs₀ : Fs) (w : World) : Prop where
  cwd : w.fs.cwd = fs₀.cwd
  intact : ∀ loc, ¬ TempLoc fs₀.cwd w.calls loc → Intact fs₀ ⟨w.fs, w.received⟩ loc
  moments : ∀ m ∈ w.moments, ∀ loc, ¬ TempLoc fs₀.cwd w.calls loc → Intact fs₀ m loc
  anonFiles : ∀ path ∈ w.anonFiles, TempLoc fs₀.cwd w.calls (locate fs₀.cwd path)
  /-- A `rename` finds the contents of its transfer under the temporary name. -/
  sources : ∀ call ∈ w.calls, ∀ path contents, call.op = .rename path contents →
    call.source = some contents

/-- The temporary file of a connection that is receiving. -/
structure Holding (cwd : Loc) (w : World) (st : ConnectionState) (ino : ℕ) : Prop where
  file : w.fs.Private (locate cwd st.anonPath) ino
  temp : TempLoc cwd w.calls (locate cwd st.anonPath)
  mapped : 0 < st.goal → st.anonBuf = some ino
  empty : st.goal = 0 → w.fs.data ino = []

/-- The invariant of one connection, among others that have the temporary files `others`. -/
structure Sound (fs₀ : Fs) (others : Loc → ℕ → Bytes → Prop) (st : ConnectionState) (w : World) :
    Prop where
  tidy : Tidy fs₀ w
  own : st.kind = .receiving → ∃ ino, Holding fs₀.cwd w st ino
  kept : ∀ loc ino data, others loc ino data →
    w.fs.Private loc ino ∧ TempLoc fs₀.cwd w.calls loc ∧ w.fs.data ino = data
  apart : st.kind = .receiving → ∀ loc ino data, others loc ino data →
    loc ≠ locate fs₀.cwd st.anonPath

/-! ## The world alone -/

section Tidy

variable {fs₀ : Fs} {w : World} {call : Call} {effect : Fs → Fs} {k : ℕ}

theorem Intact.congr {m m' : Moment} {loc : Loc} (intact : Intact fs₀ m loc)
    (contents : m'.fs.fileAt loc = m.fs.fileAt loc)
    (received : ∀ k, m.received k <+: m'.received k) : Intact fs₀ m' loc := by
  rcases intact with same | ⟨k, bytes, here, message⟩
  · exact .inl (contents.trans same)
  · obtain ⟨more, longer⟩ := received k
    exact .inr ⟨k, bytes, contents.trans here, longer ▸ message.mono⟩

/-- A call after which every destination is intact. -/
theorem Tidy.issue (tidy : Tidy fs₀ w) (cwd : (effect w.fs).cwd = w.fs.cwd)
    (intact : call.ok = true → ∀ loc, ¬ TempLoc fs₀.cwd (w.calls ++ [call]) loc →
      Intact fs₀ ⟨effect w.fs, w.received⟩ loc)
    (source : ∀ path contents, call.op = .rename path contents → call.source = some contents) :
    Tidy fs₀ (w.issue call effect) := by
  have sub : w.calls ⊆ w.calls ++ [call] := List.subset_append_left ..
  have now : ∀ loc, ¬ TempLoc fs₀.cwd (w.calls ++ [call]) loc →
      Intact fs₀ ⟨(w.issue call effect).fs, w.received⟩ loc := by
    intro loc outside
    rw [World.issue_fs]
    split
    · exact intact ‹_› loc outside
    · exact tidy.intact loc fun temp => outside (temp.mono sub)
  constructor
  case cwd =>
    rw [World.issue_fs]
    split
    · exact cwd.trans tidy.cwd
    · exact tidy.cwd
  case intact => exact now
  case moments =>
    intro m member loc outside
    rcases List.mem_append.1 member with old | new
    · exact tidy.moments m old loc fun temp => outside (temp.mono sub)
    · rw [List.mem_singleton.1 new]
      exact now loc outside
  case anonFiles => exact fun path member => (tidy.anonFiles path member).mono sub
  case sources =>
    intro other member
    rcases List.mem_append.1 member with old | new
    · exact tidy.sources other old
    · rw [List.mem_singleton.1 new]
      exact source

/-- A call that no destination notices. -/
theorem Tidy.issue_same (tidy : Tidy fs₀ w) (cwd : (effect w.fs).cwd = w.fs.cwd)
    (same : call.ok = true → ∀ loc, ¬ TempLoc fs₀.cwd (w.calls ++ [call]) loc →
      (effect w.fs).fileAt loc = w.fs.fileAt loc)
    (source : ∀ path contents, call.op = .rename path contents → call.source = some contents) :
    Tidy fs₀ (w.issue call effect) := by
  refine tidy.issue cwd (fun ok loc outside => ?_) source
  have before := tidy.intact loc fun temp => outside (temp.mono (List.subset_append_left ..))
  exact before.congr (same ok loc outside) fun _ => List.prefix_rfl

/-- What was intact before and is intact now was so at every moment. -/
theorem Tidy.moments_append (tidy : Tidy fs₀ w) {now : Moment}
    (intact : ∀ loc, ¬ TempLoc fs₀.cwd w.calls loc → Intact fs₀ now loc) :
    ∀ m ∈ w.moments ++ [now], ∀ loc, ¬ TempLoc fs₀.cwd w.calls loc → Intact fs₀ m loc :=
  List.forall_mem_append.2 ⟨tidy.moments, List.forall_mem_singleton.2 intact⟩

theorem Tidy.receive (tidy : Tidy fs₀ w) {block : Bytes} {unused : List SysRead} {fs : Fs}
    (cwd : fs.cwd = w.fs.cwd)
    (same : ∀ loc, ¬ TempLoc fs₀.cwd w.calls loc → fs.fileAt loc = w.fs.fileAt loc) :
    Tidy fs₀ (w.receive k block unused fs) := by
  have now : ∀ loc, ¬ TempLoc fs₀.cwd w.calls loc →
      Intact fs₀ ⟨fs, (w.receive k block unused fs).received⟩ loc := by
    intro loc outside
    refine (tidy.intact loc outside).congr (same loc outside) fun j => ?_
    by_cases own : j = k
    · subst own
      simp
    · simp [own]
  constructor
  case cwd => exact cwd.trans tidy.cwd
  case intact => exact now
  case moments => exact tidy.moments_append now
  case anonFiles => exact tidy.anonFiles
  case sources => exact tidy.sources

/-- Nothing that `Tidy` speaks of changed, except perhaps the set of temporary files. -/
theorem Tidy.of_fields {w' : World} (tidy : Tidy fs₀ w) (fs : w'.fs = w.fs)
    (received : w'.received = w.received) (calls : w'.calls = w.calls)
    (moments : w'.moments = w.moments)
    (anonFiles : ∀ path ∈ w'.anonFiles, TempLoc fs₀.cwd w.calls (locate fs₀.cwd path)) :
    Tidy fs₀ w' := by
  obtain ⟨cwd, intact, earlier, -, sources⟩ := tidy
  constructor
  case cwd => rwa [fs]
  case intact => rwa [fs, received, calls]
  case moments => rwa [moments, calls]
  case anonFiles => rwa [calls]
  case sources => rwa [calls]

/-! ## The calls of a transfer -/

variable {seq : UInt32} {temp : Bytes} {size : ℕ} {ok : Bool}

/-- The location of a temporary file that was just made. -/
theorem tempLoc_mkstemp (calls : List Call) (k : ℕ) (seq : UInt32) (temp : Bytes) (cwd : Loc) :
    TempLoc cwd (calls ++ [{ conn := k, seq, op := .mkstemp, temp, ok := true }])
      (locate cwd temp) :=
  ⟨_, List.mem_append_right _ (List.mem_singleton_self _), rfl, rfl, rfl⟩

theorem Tidy.mkstemp (tidy : Tidy fs₀ w) : Tidy fs₀ (w.mkstemp k seq temp ok) := by
  refine tidy.issue_same rfl (fun success loc outside => Fs.fileAt_create ?_) nofun
  rintro rfl
  cases ok with
  | true => exact outside (by rw [World.locate, tidy.cwd]; exact tempLoc_mkstemp ..)
  | false => cases success

theorem Tidy.ftruncate (tidy : Tidy fs₀ w) : Tidy fs₀ (w.ftruncate k seq temp size ok) := by
  have made : Tidy fs₀ (w.mkstemp k seq temp true) := tidy.mkstemp
  have opened : Tidy fs₀ { w.mkstemp k seq temp true with
      table := (w.mkstemp k seq temp true).table.alloc (.temp w.fs.nextIno) } :=
    made.of_fields rfl rfl rfl rfl made.anonFiles
  refine opened.issue_same rfl (fun _ loc outside => Fs.fileAt_truncate ?_ size) nofun
  intro here
  have same := (Fs.Private.created w.fs (w.locate temp)).only loc here
  subst same
  refine outside (TempLoc.mono ?_ (List.subset_append_left ..))
  rw [World.locate, tidy.cwd]
  exact tempLoc_mkstemp ..

theorem Tidy.anonfile (tidy : Tidy fs₀ w) : Tidy fs₀ (w.anonfile k seq temp size) := by
  have cut : Tidy fs₀ (w.ftruncate k seq temp size true) := tidy.ftruncate
  refine cut.of_fields rfl rfl rfl rfl fun path member => ?_
  rcases List.mem_append.1 member with old | new
  · exact cut.anonFiles path old
  · rw [List.mem_singleton.1 new]
    exact TempLoc.mono (tempLoc_mkstemp ..) (List.subset_append_left ..)

theorem Tidy.mmap (tidy : Tidy fs₀ w) : Tidy fs₀ (w.mmap k seq temp size ok) := by
  have made : Tidy fs₀ (w.anonfile k seq temp size) := tidy.anonfile
  unfold World.mmap
  split
  · exact made.issue_same rfl (fun _ _ _ => rfl) nofun
  · exact made

theorem Tidy.mkdir (tidy : Tidy fs₀ w) {path : Bytes} {mode : ℕ}
    (free : ok = true → w.fs.entries (w.locate path) = none) :
    Tidy fs₀ (w.mkdir k seq path mode ok) :=
  tidy.issue_same rfl (fun success _ _ => Fs.fileAt_mkdir (free success) mode) nofun

theorem Tidy.close (tidy : Tidy fs₀ w) (fd : ℤ) : Tidy fs₀ (w.close fd) :=
  tidy.of_fields (by simp) (by simp) (by simp) (by simp) (by simpa using tidy.anonFiles)

/-- The `rename` that ends a transfer of `contents`. -/
theorem Tidy.rename (tidy : Tidy fs₀ w) {contents path : Bytes} {ino : ℕ}
    (file : w.fs.Private (w.locate temp) ino) (data : w.fs.data ino = contents)
    (received : FullyReceived fs₀.cwd (w.received k) (locate fs₀.cwd path) contents)
    (named : TempLoc fs₀.cwd w.calls (w.locate temp)) :
    Tidy fs₀ (w.rename k seq contents temp path ok) := by
  have found : w.fs.fileAt (w.locate temp) = some contents := by rw [file.fileAt, data]
  refine tidy.issue (by simp) (fun success loc outside => ?_) ?_
  · have notSrc : loc ≠ w.locate temp := by
      rintro rfl
      exact outside (named.mono (List.subset_append_left ..))
    have before := tidy.intact loc fun temp => outside (temp.mono (List.subset_append_left ..))
    by_cases notDst : loc = w.locate path
    · subst notDst
      refine .inr ⟨k, contents, ?_, by simpa only [World.locate, tidy.cwd] using received⟩
      exact (Fs.fileAt_rename_dst (Ne.symm notSrc)).trans found
    · exact before.congr (Fs.fileAt_rename_ne notSrc notDst) fun _ => List.prefix_rfl
  · rintro path' contents' ⟨⟩
    exact found

end Tidy

/-! ## Every move -/

section Sound

variable {fs₀ : Fs} {others : Loc → ℕ → Bytes → Prop} {k : ℕ} {st : ConnectionState} {w : World}

theorem Tidy.locate_eq (tidy : Tidy fs₀ w) (path : Bytes) :
    w.locate path = locate fs₀.cwd path := by
  rw [World.locate, tidy.cwd]

/-- A block stored by a receiving connection lands in its own temporary file. -/
theorem Holding.store {cwd : Loc} {ino : ℕ} (holding : Holding cwd w st ino) {block : Bytes}
    (fits : block.length ≤ st.goal - st.progress) {other : ℕ}
    (harmless : other ≠ ino ∨ st.goal = 0) :
    (w.fs.store st.anonBuf st.progress block).data other = w.fs.data other := by
  by_cases positive : 0 < st.goal
  · have different := harmless.resolve_right positive.ne'
    rw [holding.mapped positive]
    simp [Fs.store, different]
  · -- An empty file is not mapped; nothing is stored through an older mapping.
    have nothing : block = [] := List.eq_nil_of_length_eq_zero (by omega)
    cases mapped : st.anonBuf with
    | none => rfl
    | some old =>
        by_cases same : other = old
        · simp [Fs.store, nothing, same]
        · simp [Fs.store, same]

theorem Sound.read (sound : Sound fs₀ others st w) {block : Bytes} (unused : List SysRead)
    (fits : block.length ≤ st.goal - st.progress) :
    Sound fs₀ others (st.stored (targetOf st.kind) block)
      (w.receive k block unused ((targetOf st.kind).storeFs block st w.fs)) := by
  by_cases receiving : st.kind = .receiving
  · obtain ⟨ino, holding⟩ := sound.own receiving
    have target : targetOf st.kind = .map := by rw [receiving]; rfl
    have entries : (w.fs.store st.anonBuf st.progress block).entries = w.fs.entries := by simp
    rw [target]
    constructor
    case tidy =>
      refine sound.tidy.receive (by simp [Target.storeFs]) fun loc outside => ?_
      refine Fs.fileAt_congr (congrFun entries loc) fun other here => ?_
      refine holding.store fits (.inl ?_)
      rintro rfl
      exact outside (holding.file.only loc here ▸ holding.temp)
    case own =>
      refine fun _ => ⟨ino, holding.file.congr entries, holding.temp, holding.mapped, ?_⟩
      exact fun empty => (holding.store fits (.inr empty)).trans (holding.empty empty)
    case kept =>
      intro loc other data member
      obtain ⟨priv, temp, same⟩ := sound.kept loc other data member
      refine ⟨priv.congr entries, temp, (holding.store fits (.inl ?_)).trans same⟩
      rintro rfl
      exact sound.apart receiving loc other data member (holding.file.only loc priv.entry)
    case apart => exact fun _ => sound.apart receiving
  · rw [targetOf_eq_buf receiving]
    exact {
      tidy := sound.tidy.receive rfl fun _ _ => rfl
      own := fun bad => absurd bad receiving
      kept := sound.kept
      apart := fun bad => absurd bad receiving }

theorem Sound.opened (sound : Sound fs₀ others st w) (temp : Bytes)
    (free : w.fs.CanCreate (w.locate temp)) :
    Sound fs₀ others (st.opened w.table.next w.fs.nextIno temp)
      (w.mmap k st.msg.seq temp st.msg.fsize.toNat true) := by
  have entries : (w.mmap k st.msg.seq temp st.msg.fsize.toNat true).fs.entries =
      (w.fs.create (w.locate temp)).entries := by simp
  have calls : (w.mkstemp k st.msg.seq temp true).calls ⊆
      (w.mmap k st.msg.seq temp st.msg.fsize.toNat true).calls := by
    intro call member
    rw [World.mmap_calls, World.ftruncate_calls]
    exact List.mem_append_left _ (List.mem_append_left _ member)
  have before : w.calls ⊆ (w.mkstemp k st.msg.seq temp true).calls := List.subset_append_left ..
  constructor
  case tidy => exact sound.tidy.mmap
  case own =>
    refine fun _ => ⟨w.fs.nextIno, ?_, (tempLoc_mkstemp ..).mono calls, fun positive => ?_, ?_⟩
    · rw [← sound.tidy.locate_eq]
      exact (Fs.Private.created w.fs (w.locate temp)).congr entries
    · have counted : 0 < st.msg.fsize.toNat := positive
      exact if_pos (UInt64.lt_iff_toNat_lt.2 (by simpa using counted))
    · intro empty
      have size : st.msg.fsize.toNat = 0 := empty
      simp [Fs.truncate, Fs.create, resize_nil, size]
  case kept =>
    intro loc other data member
    obtain ⟨priv, temp', same⟩ := sound.kept loc other data member
    refine ⟨(priv.create free.2.1).congr entries, (temp'.mono before).mono calls, ?_⟩
    have old := w.fs.allocated loc other priv.entry
    simpa [Fs.truncate, Fs.create, old.ne] using same
  case apart =>
    rintro - loc other data member rfl
    obtain ⟨priv, -, -⟩ := sound.kept _ other data member
    have clash := priv.entry
    rw [← sound.tidy.locate_eq] at clash
    cases free.2.1.symm.trans clash

theorem Sound.made (sound : Sound fs₀ others st w) {seq : UInt32} {path : Bytes} {mode : ℕ}
    (free : w.fs.CanCreate (w.locate path)) (fd : ℤ) :
    Sound fs₀ others st.parsed.idle ((w.mkdir k seq path mode true).close fd) := by
  constructor
  case tidy => exact (sound.tidy.mkdir fun _ => free.2.1).close fd
  case own => nofun
  case kept =>
    intro loc other data member
    obtain ⟨priv, temp, same⟩ := sound.kept loc other data member
    refine ⟨?_, ?_, by simpa using same⟩
    · simpa using priv.mkdir free.2.1 mode
    · simpa using temp.mono (List.subset_append_left ..)
  case apart => nofun

/-- The temporary file of a complete transfer holds what the transfer received. -/
theorem Holding.contents {cwd : Loc} {ino : ℕ} (holding : Holding cwd w st ino) {p : Phase}
    (tracks : Tracks w k st p) (kind : st.kind = .receiving) (full : st.progress = st.goal) :
    w.fs.data ino = st.payload w.fs := by
  obtain ⟨-, state, -⟩ := tracks
  obtain ⟨hdr, dest, got, rfl⟩ := state.exists_payload kind
  cases state with
  | payload _ whole named regular fits progress goal buf path seq mapped =>
      by_cases positive : 0 < fsize hdr
      · obtain ⟨own, buffer, -, data⟩ := mapped positive
        have same : own = ino :=
          Option.some.inj (buffer.symm.trans (holding.mapped (goal ▸ positive)))
        subst same
        have complete : got.length = fsize hdr := by omega
        simp [ConnectionState.payload, buffer, data, goal, complete]
      · have goal : st.goal = 0 := by omega
        rw [holding.empty goal]
        unfold ConnectionState.payload
        split <;> simp [goal]

/-- The message of a complete transfer has arrived in full. -/
theorem Tracks.fullyReceived {p : Phase} (tracks : Tracks w k st p) (kind : st.kind = .receiving)
    (full : st.progress = st.goal) (cwd : Loc) :
    FullyReceived cwd (w.received k) (locate cwd st.path) (st.payload w.fs) := by
  have prefixed := (tracks.published kind full [] (-1)).prefixed
  have issued : (⟨st.seq, .rename st.path (st.payload w.fs)⟩ : Issued) ∈
      issuedAfter (w.received k) := by
    simpa using prefixed.subset (by simp [issuedBy_append])
  exact fullyReceived_of_issued issued

theorem Sound.tidy_rename (sound : Sound fs₀ others st w) {p : Phase} (tracks : Tracks w k st p)
    (kind : st.kind = .receiving) (full : st.progress = st.goal) (ok : Bool) :
    Tidy fs₀ (w.rename k st.seq (st.payload w.fs) st.anonPath st.path ok) := by
  obtain ⟨ino, holding⟩ := sound.own kind
  have temp := holding.temp
  have file := holding.file
  rw [← sound.tidy.locate_eq] at temp file
  exact sound.tidy.rename file (holding.contents tracks kind full)
    (tracks.fullyReceived kind full fs₀.cwd) temp

theorem Sound.published (sound : Sound fs₀ others st w) {p : Phase} (tracks : Tracks w k st p)
    (kind : st.kind = .receiving) (full : st.progress = st.goal)
    (spared : Spared fs₀.cwd
      (w.rename k st.seq (st.payload w.fs) st.anonPath st.path true).calls) (fd : ℤ) :
    Sound fs₀ others st.idle
      (({ w.rename k st.seq (st.payload w.fs) st.anonPath st.path true with
          anonFiles := w.anonFiles.erase st.anonPath } : World).close fd) := by
  have renamed := sound.tidy_rename tracks kind full true
  have locate_eq := sound.tidy.locate_eq
  have old : w.calls ⊆ (w.rename k st.seq (st.payload w.fs) st.anonPath st.path true).calls :=
    List.subset_append_left ..
  constructor
  case tidy =>
    refine Tidy.close ?_ fd
    exact renamed.of_fields rfl rfl rfl rfl fun path member =>
      renamed.anonFiles path (List.mem_of_mem_erase member)
  case own => nofun
  case kept =>
    intro loc other data member
    obtain ⟨priv, temp, same⟩ := sound.kept loc other data member
    have notSrc := sound.apart kind loc other data member
    -- The destination is no temporary file but perhaps the transfer's own.
    have notDst : loc ≠ locate fs₀.cwd st.path := by
      rintro rfl
      have own := spared _ (List.mem_append_right _ (List.mem_singleton_self _)) st.path rfl
        (temp.mono old)
      exact notSrc (Option.some.inj own).symm
    refine ⟨?_, by simpa using temp.mono old, by simpa using same⟩
    simpa [locate_eq] using priv.rename notSrc notDst
  case apart => nofun

/-- **Every move keeps destinations intact and temporary files private.** -/
theorem Sound.move {st' : ConnectionState} {w' : World} (sound : Sound fs₀ others st w)
    {p : Phase} (tracks : Tracks w k st p) (move : Move k (st, w) (st', w'))
    (spared : Spared fs₀.cwd w'.calls) : Sound fs₀ others st' w' := by
  cases move with
  | arm kind => exact ⟨sound.tidy, nofun, sound.kept, nofun⟩
  | read block unused kind fits later => exact sound.read unused fits
  | header kind full => exact ⟨sound.tidy, nofun, sound.kept, nofun⟩
  | opened temp kind full regular free => exact sound.opened temp free
  | made kind full other free => exact sound.made free _
  | published kind full can => exact sound.published tracks kind full (by simpa using spared) _

/-- A chain that is cut short leaves destinations intact too. -/
theorem Sound.abort {e : Exit} {w' : World} (sound : Sound fs₀ others st w) {p : Phase}
    (tracks : Tracks w k st p) (abort : Abort k (st, w) e w') (answered : e ≠ .blocked) :
    Tidy fs₀ w' := by
  cases abort with
  | blocked => exact absurd rfl answered
  | read block unused kind short later failed => exact (sound.read unused short.le).tidy
  | mkstemp => exact sound.tidy.mkstemp
  | ftruncate => exact sound.tidy.ftruncate
  | mmap => exact sound.tidy.mmap
  | mkdir => exact sound.tidy.mkdir nofun
  | rename kind full => exact sound.tidy_rename tracks kind full false

end Sound

end Enuwatch.Daemon

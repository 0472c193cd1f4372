import Enuwatch.Daemon.Connection
import Mathlib.Logic.Relation

/-!
# What a wake-up can do

A wake-up is a chain of moves. A move arms the machine, stores a block, completes a header,
opens a transfer, makes a directory or publishes a file (`Move`); the chain can be cut short
by a read or a call that fails (`Abort`). Nothing else can happen (`wakeUp_moves`), and a
wake-up never stops where a further move without reading would be due (`AtRest`).

Whatever is kept by every move is kept by a wake-up, so the results about connections are
proved move by move and do not look at the program text again.
-/

set_option autoImplicit false

namespace Enuwatch.Daemon

open Enuwatch.Lib Enuwatch.Net

/-- The header in the buffer of a connection. -/
abbrev ConnectionState.msg (st : ConnectionState) : DataMessage := DataMessage.decode st.buf

namespace ConnectionState

/-- A block went to `target`. -/
def stored (st : ConnectionState) (target : Target) (block : Bytes) : ConnectionState :=
  { target.storeState block st with progress := st.progress + block.length }

/-- The fixed part of a message is complete. -/
def awaitPath (st : ConnectionState) : ConnectionState :=
  let goal := st.goal + st.msg.pathLen.toNat
  { st with goal := goal, buf := resize st.buf goal, kind := .headerP2 }

/-- The fields a complete header sets. -/
def parsed (st : ConnectionState) : ConnectionState :=
  { st with
    seq := st.msg.seq
    path := (st.buf.drop DataMessage.size).take st.msg.pathLen.toNat }

/-- A transfer was opened on descriptor `fd` and inode `ino`. -/
def opened (st : ConnectionState) (fd ino : ℕ) (temp : Bytes) : ConnectionState :=
  { st.parsed with
    anonFd := fd
    anonPath := temp
    progress := 0
    goal := st.msg.fsize.toNat
    anonBuf := if st.msg.fsize > 0 then some ino else st.anonBuf
    kind := .receiving }

/-- Back between messages. -/
def idle (st : ConnectionState) : ConnectionState :=
  { st with anonFd := -1, progress := 0, goal := 0, buf := [], kind := .connected }

/-- The bounds that keep the `size_t` arithmetic of `advance` exact. -/
structure Sane (st : ConnectionState) : Prop where
  ordered : st.progress ≤ st.goal
  bound : st.goal < 2 ^ 64
  connected : st.kind = .connected → st.progress = 0
  header : st.kind = .headerP1 → st.goal = DataMessage.size

/-- No move is due before more bytes arrive. -/
def AtRest (st : ConnectionState) : Prop :=
  st.kind = .connected ∨ st.progress < st.goal

end ConnectionState

namespace World

/-- `mkstemp` answered. -/
def mkstemp (w : World) (k : ℕ) (seq : UInt32) (temp : Bytes) (ok : Bool) : World :=
  w.issue { conn := k, seq, op := .mkstemp, temp, ok } (Fs.create (w.locate temp))

/-- `ftruncate` answered, on the file just made. -/
def ftruncate (w : World) (k : ℕ) (seq : UInt32) (temp : Bytes) (size : ℕ) (ok : Bool) : World :=
  let made := w.mkstemp k seq temp true
  { made with table := made.table.alloc (.temp w.fs.nextIno) }.issue
    { conn := k, seq, op := .ftruncate size, temp, ok } (Fs.truncate w.fs.nextIno size)

/-- `create_anonfile` is over. -/
def anonfile (w : World) (k : ℕ) (seq : UInt32) (temp : Bytes) (size : ℕ) : World :=
  let cut := w.ftruncate k seq temp size true
  { cut with anonFiles := cut.anonFiles ++ [temp] }

/-- `mmap` answered; an empty file is not mapped. -/
def mmap (w : World) (k : ℕ) (seq : UInt32) (temp : Bytes) (size : ℕ) (ok : Bool) : World :=
  if 0 < size then
    (w.anonfile k seq temp size).issue { conn := k, seq, op := .mmap size, temp, ok } id
  else w.anonfile k seq temp size

/-- `mkdir` answered. -/
def mkdir (w : World) (k : ℕ) (seq : UInt32) (path : Bytes) (mode : ℕ) (ok : Bool) : World :=
  w.issue { conn := k, seq, op := .mkdir path mode, ok } (Fs.mkdir (w.locate path) mode)

/-- `rename` answered. -/
def rename (w : World) (k : ℕ) (seq : UInt32) (contents temp path : Bytes) (ok : Bool) : World :=
  w.issue
    { conn := k, seq, op := .rename path contents, temp, ok,
      source := w.fs.fileAt (w.locate temp) }
    (Fs.rename (w.locate temp) (w.locate path))

section Fields

variable (w : World) (k : ℕ) (seq : UInt32) (temp path contents : Bytes) (size mode : ℕ) (ok : Bool)

@[simp] theorem mkstemp_received : (w.mkstemp k seq temp ok).received = w.received := rfl
@[simp] theorem mkstemp_table : (w.mkstemp k seq temp ok).table = w.table := rfl
@[simp] theorem mkstemp_accepted : (w.mkstemp k seq temp ok).accepted = w.accepted := rfl
@[simp] theorem mkstemp_closes : (w.mkstemp k seq temp ok).closes = w.closes := rfl
@[simp] theorem mkstemp_calls : (w.mkstemp k seq temp ok).calls =
    w.calls ++ [{ conn := k, seq, op := .mkstemp, temp, ok }] := rfl
@[simp] theorem mkstemp_fs : (w.mkstemp k seq temp ok).fs =
    if ok then w.fs.create (w.locate temp) else w.fs := rfl

@[simp] theorem ftruncate_received : (w.ftruncate k seq temp size ok).received = w.received := rfl
@[simp] theorem ftruncate_accepted : (w.ftruncate k seq temp size ok).accepted = w.accepted := rfl
@[simp] theorem ftruncate_closes : (w.ftruncate k seq temp size ok).closes = w.closes := rfl
@[simp] theorem ftruncate_table : (w.ftruncate k seq temp size ok).table =
    w.table.alloc (.temp w.fs.nextIno) := rfl
@[simp] theorem ftruncate_calls : (w.ftruncate k seq temp size ok).calls =
    w.calls ++ [{ conn := k, seq, op := .mkstemp, temp, ok := true }] ++
      [{ conn := k, seq, op := .ftruncate size, temp, ok }] := rfl
@[simp] theorem ftruncate_fs : (w.ftruncate k seq temp size ok).fs =
    if ok then (w.fs.create (w.locate temp)).truncate w.fs.nextIno size
    else w.fs.create (w.locate temp) := rfl

@[simp] theorem mmap_received : (w.mmap k seq temp size ok).received = w.received := by
  unfold mmap
  split <;> rfl

@[simp] theorem mmap_accepted : (w.mmap k seq temp size ok).accepted = w.accepted := by
  unfold mmap
  split <;> rfl

@[simp] theorem mmap_closes : (w.mmap k seq temp size ok).closes = w.closes := by
  unfold mmap
  split <;> rfl

@[simp] theorem mmap_table :
    (w.mmap k seq temp size ok).table = w.table.alloc (.temp w.fs.nextIno) := by
  unfold mmap
  split <;> rfl

@[simp] theorem mmap_fs : (w.mmap k seq temp size ok).fs =
    (w.fs.create (w.locate temp)).truncate w.fs.nextIno size := by
  unfold mmap
  split
  · cases ok <;> rfl
  · rfl

@[simp] theorem mmap_calls : (w.mmap k seq temp size ok).calls =
    (w.ftruncate k seq temp size true).calls ++
      if 0 < size then [{ conn := k, seq, op := .mmap size, temp, ok }] else [] := by
  unfold mmap
  split
  · rfl
  · simp [anonfile]

@[simp] theorem mkdir_received : (w.mkdir k seq path mode ok).received = w.received := rfl
@[simp] theorem mkdir_table : (w.mkdir k seq path mode ok).table = w.table := rfl
@[simp] theorem mkdir_accepted : (w.mkdir k seq path mode ok).accepted = w.accepted := rfl
@[simp] theorem mkdir_closes : (w.mkdir k seq path mode ok).closes = w.closes := rfl
@[simp] theorem mkdir_calls : (w.mkdir k seq path mode ok).calls =
    w.calls ++ [{ conn := k, seq, op := .mkdir path mode, ok }] := rfl
@[simp] theorem mkdir_fs : (w.mkdir k seq path mode ok).fs =
    if ok then w.fs.mkdir (w.locate path) mode else w.fs := rfl

@[simp] theorem rename_received :
    (w.rename k seq contents temp path ok).received = w.received := rfl
@[simp] theorem rename_table : (w.rename k seq contents temp path ok).table = w.table := rfl
@[simp] theorem rename_accepted :
    (w.rename k seq contents temp path ok).accepted = w.accepted := rfl
@[simp] theorem rename_closes : (w.rename k seq contents temp path ok).closes = w.closes := rfl
@[simp] theorem rename_calls : (w.rename k seq contents temp path ok).calls =
    w.calls ++ [{ conn := k, seq, op := .rename path contents, temp, ok,
                  source := w.fs.fileAt (w.locate temp) }] := rfl
@[simp] theorem rename_fs : (w.rename k seq contents temp path ok).fs =
    if ok then w.fs.rename (w.locate temp) (w.locate path) else w.fs := rfl

end Fields

end World

/-- `advance` reads into the buffer before a transfer and through the mapping during it. -/
def targetOf : ConnectionKind → Target
  | .receiving => .map
  | _ => .buf

theorem targetOf_eq_buf {kind : ConnectionKind} (idle : kind ≠ .receiving) :
    targetOf kind = .buf := by
  cases kind with
  | receiving => exact absurd rfl idle
  | _ => rfl

/-- One move of connection `k`. -/
inductive Move (k : ℕ) : ConnectionState × World → ConnectionState × World → Prop
  | arm {st w} (kind : st.kind = .connected) :
      Move k (st, w)
        ({ st with
            buf := resize st.buf DataMessage.size, kind := .headerP1, goal := DataMessage.size }, w)
  | read {st w} (block : Bytes) (unused : List SysRead) (kind : st.kind ≠ .connected)
      (fits : block.length ≤ st.goal - st.progress) (later : unused <:+ w.answers) :
      Move k (st, w) (st.stored (targetOf st.kind) block,
        w.receive k block unused ((targetOf st.kind).storeFs block st w.fs))
  | header {st w} (kind : st.kind = .headerP1) (full : st.progress = st.goal) :
      Move k (st, w) (st.awaitPath, w)
  | opened {st w} (temp : Bytes) (kind : st.kind = .headerP2) (full : st.progress = st.goal)
      (regular : st.msg.ftype = FileType.regular.code) (free : w.fs.CanCreate (w.locate temp)) :
      Move k (st, w) (st.opened w.table.next w.fs.nextIno temp,
        w.mmap k st.msg.seq temp st.msg.fsize.toNat true)
  | made {st w} (kind : st.kind = .headerP2) (full : st.progress = st.goal)
      (other : st.msg.ftype ≠ FileType.regular.code)
      (free : w.fs.CanCreate (w.locate st.parsed.path)) :
      Move k (st, w) (st.parsed.idle,
        (w.mkdir k st.msg.seq st.parsed.path st.perms true).close st.anonFd)
  | published {st w} (kind : st.kind = .receiving) (full : st.progress = st.goal)
      (can : w.fs.CanRename (w.locate st.anonPath) (w.locate st.path)) :
      Move k (st, w) (st.idle,
        ({ w.rename k st.seq (st.payload w.fs) st.anonPath st.path true with
            anonFiles := w.anonFiles.erase st.anonPath } : World).close st.anonFd)

/-- What can cut a chain of moves short. -/
inductive Abort (k : ℕ) : ConnectionState × World → Exit → World → Prop
  | blocked {st w w'} : Abort k (st, w) .blocked w'
  | read {st w} (block : Bytes) (unused : List SysRead) (kind : st.kind ≠ .connected)
      (short : block.length < st.goal - st.progress) (later : unused <:+ w.answers)
      (failed : SysRead.error ∈ w.answers) :
      Abort k (st, w) (.returned ((targetOf st.kind).storeState block st))
        (w.receive k block unused ((targetOf st.kind).storeFs block st w.fs))
  | mkstemp {st w} (temp : Bytes) (kind : st.kind = .headerP2) (full : st.progress = st.goal)
      (regular : st.msg.ftype = FileType.regular.code) :
      Abort k (st, w) .fatal (w.mkstemp k st.msg.seq temp false)
  | ftruncate {st w} (temp : Bytes) (kind : st.kind = .headerP2) (full : st.progress = st.goal)
      (regular : st.msg.ftype = FileType.regular.code) (free : w.fs.CanCreate (w.locate temp)) :
      Abort k (st, w) .fatal (w.ftruncate k st.msg.seq temp st.msg.fsize.toNat false)
  | mmap {st w} (temp : Bytes) (kind : st.kind = .headerP2) (full : st.progress = st.goal)
      (regular : st.msg.ftype = FileType.regular.code) (free : w.fs.CanCreate (w.locate temp))
      (some : 0 < st.msg.fsize.toNat) :
      Abort k (st, w) .fatal (w.mmap k st.msg.seq temp st.msg.fsize.toNat false)
  | mkdir {st w} (kind : st.kind = .headerP2) (full : st.progress = st.goal)
      (other : st.msg.ftype ≠ FileType.regular.code) :
      Abort k (st, w) .fatal (w.mkdir k st.msg.seq st.parsed.path st.perms false)
  | rename {st w} (kind : st.kind = .receiving) (full : st.progress = st.goal) :
      Abort k (st, w) .fatal
        (w.rename k st.seq (st.payload w.fs) st.anonPath st.path false)

/-- A chain of moves. -/
abbrev Chain (k : ℕ) := Relation.ReflTransGen (Move k)

/-- A chain of moves that was cut short. -/
def Cut (k : ℕ) (start : ConnectionState × World) (e : Exit) (w : World) : Prop :=
  ∃ mid, Chain k start mid ∧ Abort k mid e w

/-! ## The program follows the moves -/

section Program

variable {k : ℕ} {ans : Answers} {st : ConnectionState} {w : World}
  {start : ConnectionState × World}

@[simp] theorem storeState_progress (target : Target) (block : Bytes) (st : ConnectionState) :
    (target.storeState block st).progress = st.progress := by cases target <;> rfl

@[simp] theorem storeState_goal (target : Target) (block : Bytes) (st : ConnectionState) :
    (target.storeState block st).goal = st.goal := by cases target <;> rfl

@[simp] theorem storeState_kind (target : Target) (block : Bytes) (st : ConnectionState) :
    (target.storeState block st).kind = st.kind := by cases target <;> rfl

theorem ConnectionState.Sane.stored (sane : st.Sane) {target : Target} {block : Bytes}
    (kind : st.kind ≠ .connected) (fits : block.length ≤ st.goal - st.progress) :
    (st.stored target block).Sane where
  ordered := by
    have ordered := sane.ordered
    simp only [ConnectionState.stored, storeState_goal]
    omega
  bound := by simpa [ConnectionState.stored] using sane.bound
  connected bad := absurd (by simpa [ConnectionState.stored] using bad) kind
  header first := by
    simpa [ConnectionState.stored] using sane.header (by simpa [ConnectionState.stored] using first)

/-- `advance` is one read, and it tells whether the goal is reached. -/
theorem wp_advance {Q : Progress × ConnectionState → World → Prop} {E : Exit → World → Prop}
    (sane : st.Sane) (kind : st.kind ≠ .connected) (blocked : E .blocked w)
    (failed : ∀ st' w', Abort k (st, w) (.returned st') w' → Q (.fail, st') w')
    (moved : ∀ st' w', Move k (st, w) (st', w') → st'.Sane → st'.kind = st.kind →
      (st'.progress ≠ st'.goal → Q (.part, st') w') ∧
      (st'.progress = st'.goal → Q (.done, st') w')) :
    wp (advance k (targetOf st.kind) st) Q E w := by
  simp only [advance, wp_bind, wp_get]
  rw [sizeSub_of_le sane.ordered sane.bound]
  cases answered : readPartial (st.goal - st.progress) w.answers with
  | none => exact blocked
  | some t =>
      obtain ⟨count, fits, later, failure⟩ := readPartial_spec answered
      rw [Nat.zero_add] at count fits
      have sum : sizeAdd st.progress t.result.nBytes = st.progress + t.bytes.length := by
        have ordered := sane.ordered
        have bound := sane.bound
        rw [count]
        exact sizeAdd_of_lt (by omega)
      simp only [wp_bind, wp_set]
      cases outcome : t.result.kind with
      | fail =>
          obtain ⟨member, short⟩ := failure outcome
          exact failed _ _ (.read t.bytes t.unused kind (by omega) later member)
      | ok =>
          obtain ⟨short, full⟩ := moved _ _ (.read t.bytes t.unused kind fits later)
            (sane.stored kind fits) (storeState_kind _ _ _)
          simp only [wp_pure, storeState_progress, sum]
          split
          · rename_i reached
            exact full reached
          · rename_i reached
            exact short reached

theorem ConnectionState.Sane.awaitPath (sane : st.Sane) (kind : st.kind = .headerP1) :
    st.awaitPath.Sane where
  ordered := sane.ordered.trans (Nat.le_add_right _ _)
  bound := by
    have goal := sane.header kind
    have small := st.msg.pathLen.toNat_lt
    simp only [ConnectionState.awaitPath, goal, DataMessage.size]
    omega
  connected := nofun
  header := nofun

theorem ConnectionState.sane_opened (st : ConnectionState) (fd ino : ℕ) (temp : Bytes) :
    (st.opened fd ino temp).Sane where
  ordered := Nat.zero_le _
  bound := st.msg.fsize.toNat_lt
  connected := nofun
  header := nofun

theorem ConnectionState.sane_idle (st : ConnectionState) : st.idle.Sane where
  ordered := le_rfl
  bound := by simp [ConnectionState.idle]
  connected _ := rfl
  header := nofun

/-- Arming is a move or nothing. -/
theorem chain_arm (chain : Chain k start (st, w)) (sane : st.Sane) :
    Chain k start (arm st, w) ∧ (arm st).Sane ∧ (arm st).kind ≠ .connected ∧
      (st.AtRest → (arm st).AtRest) := by
  unfold arm
  split
  · rename_i kind
    have progress := sane.connected kind
    refine ⟨chain.tail (.arm kind), ⟨?_, ?_, nofun, fun _ => rfl⟩, nofun, fun _ => .inr ?_⟩
    · simp [progress]
    · simp [DataMessage.size]
    · simp [progress, DataMessage.size]
  · exact ⟨chain, sane, by assumption, id⟩

/-- A chain goes on with `advance`, or is cut there. -/
theorem wp_advance_chain {Q : Progress × ConnectionState → World → Prop}
    (chain : Chain k start (st, w)) (sane : st.Sane) (kind : st.kind ≠ .connected)
    (failed : ∀ st' w', Cut k start (.returned st') w' → Q (.fail, st') w')
    (moved : ∀ st' w', Chain k start (st', w') → st'.Sane → st'.kind = st.kind →
      (st'.progress < st'.goal → Q (.part, st') w') ∧
      (st'.progress = st'.goal → Q (.done, st') w')) :
    wp (advance k (targetOf st.kind) st) Q (Cut k start) w := by
  refine wp_advance sane kind ⟨_, chain, .blocked⟩ ?_ ?_
  · intro st' w' abort
    exact failed st' w' ⟨_, chain, abort⟩
  · intro st' w' move sane' kind'
    obtain ⟨short, full⟩ := moved st' w' (chain.tail move) sane' kind'
    exact ⟨fun partly => short (lt_of_le_of_ne sane'.ordered partly), full⟩

theorem headerP1_moves (chain : Chain k start (st, w)) (sane : st.Sane) (rest : st.AtRest)
    (kind : st.kind ≠ .connected) :
    wp (headerP1 k st)
      (fun st' w' => Chain k start (st', w') ∧ st'.Sane ∧ st'.kind ≠ .connected ∧
        (st'.AtRest ∨ st'.kind = .headerP2))
      (Cut k start) w := by
  unfold headerP1
  split
  · rename_i here
    rw [wp_bind, show Target.buf = targetOf st.kind by rw [here]; rfl]
    refine wp_advance_chain chain sane kind (fun _ _ cut => cut) ?_
    intro st' w' chain sane' kind'
    constructor
    · intro short
      exact ⟨chain, sane', by rwa [kind'], .inl (.inr short)⟩
    · intro full
      have first : st'.kind = .headerP1 := kind'.trans here
      have goal : sizeAdd st'.goal (DataMessage.decode st'.buf).pathLen.toNat =
          st'.goal + st'.msg.pathLen.toNat :=
        sizeAdd_of_lt (sane'.awaitPath first).bound
      rw [wp_pure, goal]
      exact ⟨chain.tail (.header first full), sane'.awaitPath first, nofun, .inr rfl⟩
  · exact ⟨chain, sane, kind, .inl rest⟩

theorem wp_createAnonfile {seq : UInt32} {size mode : ℕ} {Q : ℕ × Bytes → World → Prop}
    {E : Exit → World → Prop}
    (unmade : E .fatal (w.mkstemp k seq ans.temp false))
    (uncut : w.fs.CanCreate (w.locate ans.temp) →
      E .fatal (w.ftruncate k seq ans.temp size false))
    (made : w.fs.CanCreate (w.locate ans.temp) →
      Q (w.table.next, ans.temp)
        (w.anonfile k seq ans.temp size)) :
    wp (createAnonfile k seq size mode ans) Q E w := by
  simp only [createAnonfile, wp_bind, wp_get]
  refine wp_issue (fun created => ?_) fun _ => unmade
  obtain ⟨-, free⟩ : ans.mkstemp = true ∧ _ := by simpa using created
  rw [wp_modify]
  exact wp_issue (fun _ => made free) fun _ => uncut free

theorem openTransfer_moves (chain : Chain k start (st, w)) (kind : st.kind = .headerP2)
    (full : st.progress = st.goal) (regular : st.msg.ftype = FileType.regular.code) :
    wp (openTransfer k st.msg ans st.parsed)
      (fun st' w' => Chain k start (st', w') ∧ st'.Sane ∧ (st'.AtRest ∨ st'.kind = .receiving))
      (Cut k start) w := by
  simp only [openTransfer, wp_bind]
  refine wp_createAnonfile ⟨_, chain, .mkstemp _ kind full regular⟩
    (fun free => ⟨_, chain, .ftruncate _ kind full regular free⟩) fun free => ?_
  have entry : (w.anonfile k st.msg.seq ans.temp
      st.msg.fsize.toNat).table.get w.table.next = some (.temp w.fs.nextIno) :=
    Slots.get_alloc_next _ _
  have move := Move.opened (k := k) _ kind full regular free
  have sane := st.sane_opened w.table.next w.fs.nextIno ans.temp
  by_cases positive : st.msg.fsize > 0
  · have counted : 0 < st.msg.fsize.toNat := by simpa using UInt64.lt_iff_toNat_lt.1 positive
    simp only [if_pos positive, wp_bind, wp_get, wp_pure]
    simp only [World.mmap, if_pos counted, ConnectionState.opened, if_pos positive] at move sane
    refine wp_issue (fun _ => ?_) fun _ => ?_
    · simp only [World.issue_table]
      rw [show st.parsed.seq = st.msg.seq from rfl, entry]
      exact ⟨chain.tail move, sane, .inr trivial⟩
    · have abort := Abort.mmap (k := k) _ kind full regular free counted
      rw [World.mmap, if_pos counted] at abort
      exact ⟨_, chain, abort⟩
  · have counted : ¬ 0 < st.msg.fsize.toNat := fun more =>
      positive (UInt64.lt_iff_toNat_lt.2 (by simpa using more))
    simp only [World.mmap, if_neg counted, ConnectionState.opened, if_neg positive] at move sane
    rw [if_neg positive]
    exact ⟨chain.tail move, sane, .inr rfl⟩

theorem makeDirectory_moves (chain : Chain k start (st, w)) (kind : st.kind = .headerP2)
    (full : st.progress = st.goal) (other : st.msg.ftype ≠ FileType.regular.code) :
    wp (makeDirectory k ans st.parsed)
      (fun st' w' => Chain k start (st', w') ∧ st'.Sane ∧ (st'.AtRest ∨ st'.kind = .receiving))
      (Cut k start) w := by
  simp only [makeDirectory, ConnectionState.reset, wp_bind, wp_get]
  refine wp_issue ?_ ?_
  · intro made
    obtain ⟨-, free⟩ : ans.mkdir = true ∧ _ := by simpa using made
    exact ⟨chain.tail (.made kind full other free), st.parsed.sane_idle, .inl (.inl rfl)⟩
  · intro failed
    exact ⟨_, chain, .mkdir kind full other⟩

theorem headerP2_moves (chain : Chain k start (st, w)) (sane : st.Sane)
    (rest : st.AtRest ∨ st.kind = .headerP2) (kind : st.kind ≠ .connected) :
    wp (headerP2 k ans st)
      (fun st' w' => Chain k start (st', w') ∧ st'.Sane ∧ (st'.AtRest ∨ st'.kind = .receiving))
      (Cut k start) w := by
  unfold headerP2
  split
  · rename_i here
    rw [wp_bind, show Target.buf = targetOf st.kind by rw [here]; rfl]
    refine wp_advance_chain chain sane kind (fun _ _ cut => cut) ?_
    intro st' w' chain sane' kind'
    have second : st'.kind = .headerP2 := kind'.trans here
    constructor
    · intro short
      exact ⟨chain, sane', .inl (.inr short)⟩
    · intro full
      rw [wp_ite]
      constructor
      · intro regular
        exact openTransfer_moves chain second full regular
      · intro other
        exact makeDirectory_moves chain second full other
  · rename_i other
    exact ⟨chain, sane, .inl (rest.resolve_right other)⟩

theorem receiving_moves (chain : Chain k start (st, w)) (sane : st.Sane)
    (rest : st.AtRest ∨ st.kind = .receiving) :
    wp (receiving k ans st) (fun st' w' => Chain k start (st', w') ∧ st'.Sane ∧ st'.AtRest)
      (Cut k start) w := by
  unfold receiving
  split
  · rename_i here
    have kind : st.kind ≠ .connected := by simp [here]
    rw [wp_bind, show Target.map = targetOf st.kind by rw [here]; rfl]
    refine wp_advance_chain chain sane kind (fun _ _ cut => cut) ?_
    intro st' w' chain sane' kind'
    have third : st'.kind = .receiving := kind'.trans here
    constructor
    · intro short
      exact ⟨chain, sane', .inr short⟩
    · intro full
      simp only [wp_bind, wp_get, moveAnonfile, ConnectionState.reset]
      refine wp_issue ?_ ?_
      · intro ok
        obtain ⟨-, can⟩ : ans.rename = true ∧ _ := by simpa using ok
        exact ⟨chain.tail (.published third full can), st'.sane_idle, .inl rfl⟩
      · intro failed
        exact ⟨_, chain, .rename third full⟩
  · rename_i other
    exact ⟨chain, sane, rest.resolve_right other⟩

/-- **A wake-up is a chain of moves.** It stops where the next move has to wait for bytes. -/
theorem wakeUp_moves (sane : st.Sane) (rest : st.AtRest) :
    wp (wakeUp k ans st)
      (fun st' w' => Chain k (st, w) (st', w') ∧ st'.Sane ∧ st'.AtRest) (Cut k (st, w)) w := by
  obtain ⟨armed, sane, kind, rest'⟩ := chain_arm (k := k) (w := w) .refl sane
  simp only [wakeUp, wp_bind]
  refine wp_mono (headerP1_moves armed sane (rest' rest) kind) ?_ fun _ _ => id
  rintro st₁ w₁ ⟨chain, sane, kind, rest⟩
  refine wp_mono (headerP2_moves chain sane rest kind) ?_ fun _ _ => id
  rintro st₂ w₂ ⟨chain, sane, rest⟩
  exact receiving_moves chain sane rest

end Program

end Enuwatch.Daemon

import Enuwatch.Daemon.State

/-!
# One wake-up of a connection

When `poll` reports a connection readable, `daemon_main` runs the state machine of that
connection: it waits for the header, then for the path, and then makes a directory or
receives a file. The states fall through, so one wake-up can cross several of them.

The functions below follow the `if` blocks of the loop body one by one.
-/

set_option autoImplicit false

namespace Enuwatch.Daemon

open Enuwatch.Lib Enuwatch.Net

/-- `/tmp/enu.`, the fixed part of the template of `mkstemp`. -/
def tempPrefix : Bytes := [47, 116, 109, 112, 47, 101, 110, 117, 46]

/-- The name that `mkstemp` makes of its template. -/
def Answers.temp (ans : Answers) : Bytes := tempPrefix ++ ans.suffix.chars

/-- `create_anonfile`: a new file of the given size, its descriptor and its path. The
requested mode is not used. -/
def createAnonfile (k : ℕ) (seq : UInt32) (fsize : ℕ) (_mode : ℕ) (ans : Answers) :
    Sys (ℕ × Bytes) := do
  let w ← get
  let temp := ans.temp
  let fd := w.table.next
  let ino := w.fs.nextIno
  let made := ans.mkstemp && decide (w.fs.CanCreate (w.locate temp))
  issue { conn := k, seq, op := .mkstemp, temp, ok := made } (Fs.create (w.locate temp))
  modify fun w => { w with table := w.table.alloc (.temp ino) }
  -- `ftruncate` takes a signed length.
  let cut := ans.ftruncate && decide (fsize < 2 ^ 63)
  issue { conn := k, seq, op := .ftruncate fsize, temp, ok := cut } (Fs.truncate ino fsize)
  modify fun w => { w with anonFiles := w.anonFiles ++ [temp] }
  return (fd, temp)

/-- `move_anonfile`; `contents` is what the transfer has received, for the record. -/
def moveAnonfile (k : ℕ) (seq : UInt32) (contents anonPath permPath : Bytes) (ans : Answers) :
    Sys Unit := do
  let w ← get
  let src := w.locate anonPath
  let dst := w.locate permPath
  let moved := ans.rename && decide (w.fs.CanRename src dst)
  issue { conn := k, seq, op := .rename permPath contents, temp := anonPath, ok := moved,
          source := w.fs.fileAt src } (Fs.rename src dst)
  modify fun w => { w with anonFiles := w.anonFiles.erase anonPath }

namespace ConnectionState

/-- What the mapping of the temporary file holds. -/
def payload (st : ConnectionState) (fs : Fs) : Bytes :=
  match st.anonBuf with
  | none => []
  | some ino => (fs.data ino).take st.goal

/-- `ConnectionState::reset`. -/
def reset (st : ConnectionState) : Sys ConnectionState := do
  modify fun w => w.close st.anonFd
  return { st with anonFd := -1, progress := 0, goal := 0, buf := [] }

/-- `ConnectionState::~ConnectionState`. -/
def destroy (st : ConnectionState) (w : World) : World :=
  -- `close` ignores the initial value `-1`, as the guards of the destructor do.
  ((w.close st.anonFd).close st.clientFd).close st.sockFd

end ConnectionState

/-- Where `advance` stores bytes: in `buf` or through the mapping `anon_buf`. -/
inductive Target where
  | buf
  | map
deriving DecidableEq, Repr

namespace Target

/-- The state of the connection after a block was stored at its progress. -/
def storeState : Target → Bytes → ConnectionState → ConnectionState
  | .buf, block, st => { st with buf := overwrite st.buf st.progress block }
  | .map, _, st => st

/-- The file system after a block was stored at the progress of `st`. -/
def storeFs : Target → Bytes → ConnectionState → Fs → Fs
  | .buf, _, _, fs => fs
  | .map, block, st, fs => fs.store st.anonBuf st.progress block

end Target

/-- The lambda `advance`: read towards the goal. -/
def advance (k : ℕ) (target : Target) (st : ConnectionState) : Sys (Progress × ConnectionState) := do
  let w ← get
  match readPartial (sizeSub st.goal st.progress) w.answers with
  | none => throw .blocked
  | some t =>
      set (w.receive k t.bytes t.unused (target.storeFs t.bytes st w.fs))
      let st' := target.storeState t.bytes st
      match t.result.kind with
      | .fail => return (.fail, st')
      | .ok =>
          let st' := { st' with progress := sizeAdd st'.progress t.result.nBytes }
          return (if st'.progress = st'.goal then .done else .part, st')

/-- `Connected`: arm the state machine for a header. -/
def arm (st : ConnectionState) : ConnectionState :=
  match st.kind with
  | .connected =>
      { st with buf := resize st.buf DataMessage.size, kind := .headerP1, goal := DataMessage.size }
  | _ => st

/-- `HeaderP1`: wait for the fixed part of a message. -/
def headerP1 (k : ℕ) (st : ConnectionState) : Sys ConnectionState :=
  match st.kind with
  | .headerP1 => do
      let (p, st) ← advance k .buf st
      match p with
      | .fail => throw (.returned st)
      | .part => return st
      | .done =>
          let goal := sizeAdd st.goal (DataMessage.decode st.buf).pathLen.toNat
          return { st with goal := goal, buf := resize st.buf goal, kind := .headerP2 }
  | _ => return st

/-- A complete header of a regular file: make the temporary file that will hold it. -/
def openTransfer (k : ℕ) (msg : DataMessage) (ans : Answers) (st : ConnectionState) :
    Sys ConnectionState := do
  let (anonFd, anonPath) ← createAnonfile k st.seq msg.fsize.toNat st.perms ans
  let st := { st with anonFd := anonFd, anonPath := anonPath, progress := 0, goal := msg.fsize.toNat }
  let st ← if msg.fsize > 0 then do
      issue { conn := k, seq := st.seq, op := .mmap msg.fsize.toNat, temp := anonPath, ok := ans.mmap } id
      let w ← get
      pure { st with
        anonBuf := match w.table.get anonFd with
          | some (.temp ino) => some ino
          | _ => none }
    else pure st
  return { st with kind := .receiving }

/-- A complete header of anything else: make a directory. -/
def makeDirectory (k : ℕ) (ans : Answers) (st : ConnectionState) : Sys ConnectionState := do
  let w ← get
  let loc := w.locate st.path
  let made := ans.mkdir && decide (w.fs.CanCreate loc)
  issue { conn := k, seq := st.seq, op := .mkdir st.path st.perms, ok := made }
    (Fs.mkdir loc st.perms)
  let st ← st.reset
  return { st with kind := .connected }

/-- `HeaderP2`: wait for the path, then act on the header. -/
def headerP2 (k : ℕ) (ans : Answers) (st : ConnectionState) : Sys ConnectionState :=
  match st.kind with
  | .headerP2 => do
      let (p, st) ← advance k .buf st
      match p with
      | .fail => throw (.returned st)
      | .part => return st
      | .done =>
          let msg := DataMessage.decode st.buf
          -- `state.perms = static_cast<mode_t>(state.perms)` assigns the field to itself.
          let st := { st with
            seq := msg.seq
            path := (st.buf.drop DataMessage.size).take msg.pathLen.toNat
            perms := st.perms }
          if msg.ftype = FileType.regular.code then openTransfer k msg ans st
          else makeDirectory k ans st
  | _ => return st

/-- `Receiving`: wait for the contents, then publish them. -/
def receiving (k : ℕ) (ans : Answers) (st : ConnectionState) : Sys ConnectionState :=
  match st.kind with
  | .receiving => do
      let (p, st) ← advance k .map st
      match p with
      | .fail => throw (.returned st)
      | .part => return st
      | .done =>
          -- The result of `fsync` is not looked at.
          let w ← get
          moveAnonfile k st.seq (st.payload w.fs) st.anonPath st.path ans
          let st ← st.reset
          return { st with kind := .connected }
  | _ => return st

/-- One wake-up of connection `k`. -/
def wakeUp (k : ℕ) (ans : Answers) (st : ConnectionState) : Sys ConnectionState := do
  let st ← headerP1 k (arm st)
  let st ← headerP2 k ans st
  receiving k ans st

end Enuwatch.Daemon

import Enuwatch.FileSystem
import Enuwatch.Lib.Effects
import Enuwatch.Lib.Slots
import Enuwatch.Net
import Enuwatch.Wire

/-!
# The state of the daemon's side of the world

`ConnectionState` is the record `daemon_main` keeps for every accepted connection.
`World` is what lies outside that record: the descriptor table, the file system, the
streams and the process-wide set of temporary files.

The world also keeps a history. It records, in order, the file system calls the
daemon issues (`calls`), the descriptors it closes (`closes`), the bytes every
connection has delivered (`received`) and the file system after every call
(`moments`). The daemon never reads the history; statements about every moment of a
run are statements about it.
-/

set_option autoImplicit false

namespace Enuwatch.Daemon

open Enuwatch.Lib Enuwatch.Net

inductive ConnectionKind where
  | connected
  | headerP1
  | headerP2
  | receiving
deriving DecidableEq, Repr

/-- The record of one connection. `std::unordered_map::operator[]` value-initialises it,
so the fields without an initialiser start at zero. -/
structure ConnectionState where
  kind : ConnectionKind := .connected
  seq : UInt32 := 0
  perms : ℕ := 0
  path : Bytes := []
  progress : ℕ := 0
  goal : ℕ := 0
  anonPath : Bytes := []
  anonFd : ℤ := -1
  /-- The inode that `anon_buf` maps. -/
  anonBuf : Option ℕ := none
  buf : Bytes := []
  clientFd : ℤ := -1
  sockFd : ℤ := -1
deriving DecidableEq, Repr

inductive Progress where
  | fail
  | part
  | done
deriving DecidableEq, Repr

/-! ## `size_t` arithmetic -/

/-- Subtraction of `size_t`. -/
def sizeSub (a b : ℕ) : ℕ := (a + 2 ^ 64 - b) % 2 ^ 64

/-- Addition of `size_t`. -/
def sizeAdd (a b : ℕ) : ℕ := (a + b) % 2 ^ 64

theorem sizeSub_of_le {a b : ℕ} (ordered : b ≤ a) (bound : a < 2 ^ 64) : sizeSub a b = a - b := by
  unfold sizeSub
  omega

theorem sizeAdd_of_lt {a b : ℕ} (bound : a + b < 2 ^ 64) : sizeAdd a b = a + b :=
  Nat.mod_eq_of_lt bound

/-! ## The world -/

/-- What an open descriptor refers to. Connections are numbered in the order of their
acceptance, temporary files by their inode. -/
inductive Desc where
  | inherited
  | listening (port : UInt16)
  | conn (k : ℕ)
  | temp (ino : ℕ)
deriving DecidableEq, Repr

/-- A file system operation the daemon asks for. The name of a temporary file is chosen by
the kernel and is not part of the operation; `rename` is recorded with the contents of the
transfer it ends. -/
inductive FsOp where
  | mkstemp
  | ftruncate (size : ℕ)
  | mmap (size : ℕ)
  | mkdir (path : Bytes) (mode : ℕ)
  | rename (path contents : Bytes)
deriving DecidableEq, Repr

/-- A call the daemon issued: on whose behalf, under which sequence number, what it asked
for, the temporary file involved and whether it succeeded; for a `rename` also the contents
found under the name of the temporary file. -/
structure Call where
  conn : ℕ
  seq : UInt32
  op : FsOp
  temp : Option Bytes := none
  ok : Bool
  source : Option Bytes := none
deriving DecidableEq, Repr

/-- What an observer can see after a call: the file system and the streams so far. -/
structure Moment where
  fs : Fs
  received : ℕ → Bytes

structure World where
  table : Slots Desc
  fs : Fs
  /-- The number of connections accepted so far. -/
  accepted : ℕ := 0
  /-- `ANON_FILES`. -/
  anonFiles : List Bytes := []
  /-- The answers the kernel still gives to the reads of this wake-up. -/
  answers : List SysRead := []
  received : ℕ → Bytes := fun _ => []
  calls : List Call := []
  closes : List (ℕ × Option Desc) := []
  moments : List Moment := []

/-- The six characters that `mkstemp` puts for the `XXXXXX` of its template. -/
structure Suffix where
  chars : Bytes
  six : chars.length = 6
  /-- No `/`, and no zero byte. -/
  named : 47 ∉ chars ∧ 0 ∉ chars
deriving DecidableEq, Repr

def Suffix.letters : Suffix := ⟨[97, 97, 97, 97, 97, 97], rfl, by simp⟩

/-- The answers of the kernel in one round of the poll loop. A call that is answered `true`
still fails when the state of the world does not allow it. -/
structure Answers where
  reads : List SysRead := []
  suffix : Suffix := .letters
  mkstemp : Bool := true
  ftruncate : Bool := true
  mmap : Bool := true
  mkdir : Bool := true
  rename : Bool := true
  accept : Bool := true
deriving DecidableEq, Repr

/-- How a round can leave the loop: `return false` with the state of the connection at that
point, or `pfatal`. A round can also wait for a read that is not answered. -/
inductive Exit where
  | returned (state : ConnectionState)
  | fatal
  | blocked

abbrev Sys := EStateM Exit World

namespace World

/-- The location a path names for the daemon. -/
def locate (w : World) (path : Bytes) : Loc := Enuwatch.locate w.fs.cwd path

/-- Note a change of the file system. -/
def commit (w : World) (fs : Fs) : World :=
  { w with fs := fs, moments := w.moments ++ [⟨fs, w.received⟩] }

/-- Issue a call: it changes the file system when it succeeds. -/
def issue (w : World) (call : Call) (effect : Fs → Fs) : World :=
  { w with calls := w.calls ++ [call] }.commit (if call.ok then effect w.fs else w.fs)

/-- `close`. A negative number is no descriptor. -/
def close (w : World) : ℤ → World
  | .ofNat fd => { w with table := w.table.free fd, closes := w.closes ++ [(fd, w.table.get fd)] }
  | .negSucc _ => w

/-- Bytes of connection `k` arrive in memory; the file system is `fs` afterwards. -/
def receive (w : World) (k : ℕ) (bytes : Bytes) (unused : List SysRead) (fs : Fs) : World :=
  { w with
    answers := unused
    received := Function.update w.received k (w.received k ++ bytes) }.commit fs

/-! ## What each operation changes -/

section Fields

variable (w : World) (call : Call) (effect : Fs → Fs) (k : ℕ) (bytes : Bytes)
  (unused : List SysRead) (fs : Fs) (fd : ℤ)

@[simp] theorem issue_calls : (w.issue call effect).calls = w.calls ++ [call] := rfl
@[simp] theorem issue_received : (w.issue call effect).received = w.received := rfl
@[simp] theorem issue_table : (w.issue call effect).table = w.table := rfl
@[simp] theorem issue_accepted : (w.issue call effect).accepted = w.accepted := rfl
@[simp] theorem issue_anonFiles : (w.issue call effect).anonFiles = w.anonFiles := rfl
@[simp] theorem issue_closes : (w.issue call effect).closes = w.closes := rfl
@[simp] theorem issue_answers : (w.issue call effect).answers = w.answers := rfl

@[simp] theorem issue_fs :
    (w.issue call effect).fs = if call.ok then effect w.fs else w.fs := rfl

@[simp] theorem receive_calls : (w.receive k bytes unused fs).calls = w.calls := rfl
@[simp] theorem receive_table : (w.receive k bytes unused fs).table = w.table := rfl
@[simp] theorem receive_accepted : (w.receive k bytes unused fs).accepted = w.accepted := rfl
@[simp] theorem receive_anonFiles : (w.receive k bytes unused fs).anonFiles = w.anonFiles := rfl
@[simp] theorem receive_closes : (w.receive k bytes unused fs).closes = w.closes := rfl
@[simp] theorem receive_answers : (w.receive k bytes unused fs).answers = unused := rfl
@[simp] theorem receive_fs : (w.receive k bytes unused fs).fs = fs := rfl

@[simp] theorem receive_received :
    (w.receive k bytes unused fs).received =
      Function.update w.received k (w.received k ++ bytes) := rfl

@[simp] theorem close_calls : (w.close fd).calls = w.calls := by cases fd <;> rfl
@[simp] theorem close_received : (w.close fd).received = w.received := by cases fd <;> rfl
@[simp] theorem close_accepted : (w.close fd).accepted = w.accepted := by cases fd <;> rfl
@[simp] theorem close_anonFiles : (w.close fd).anonFiles = w.anonFiles := by cases fd <;> rfl
@[simp] theorem close_fs : (w.close fd).fs = w.fs := by cases fd <;> rfl
@[simp] theorem close_moments : (w.close fd).moments = w.moments := by cases fd <;> rfl
@[simp] theorem close_answers : (w.close fd).answers = w.answers := by cases fd <;> rfl
@[simp] theorem close_neg_one : w.close (-1) = w := rfl

end Fields

end World

/-- Issue a call whose failure is fatal. -/
def issue (call : Call) (effect : Fs → Fs) : Sys Unit := do
  let w ← get
  set (w.issue call effect)
  if call.ok then pure () else throw .fatal

theorem wp_issue {call : Call} {effect : Fs → Fs} {Q : Unit → World → Prop}
    {E : Exit → World → Prop} {w : World}
    (ok : call.ok = true → Q () (w.issue { call with ok := true } effect))
    (failed : call.ok = false → E .fatal (w.issue { call with ok := false } effect)) :
    wp (issue call effect) Q E w := by
  simp only [issue, wp_bind, wp_get, wp_set]
  obtain ⟨conn, seq, op, temp, answer, source⟩ := call
  cases answer with
  | true => exact ok rfl
  | false => exact failed rfl

end Enuwatch.Daemon

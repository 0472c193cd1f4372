import Enuwatch.Lib.Buffer
import Mathlib.Logic.Function.Basic

/-!
# The file system of the remote machine

A directory tree over inodes: a location holds a directory or a reference to an
inode, and the inode holds the bytes. A file that is mapped into memory keeps its
inode while names come and go, which is what makes a rename a publication.

A path is resolved by its components from the current directory, or from the root
when it starts with a slash. The kernel reads a path up to its first NUL byte.

Every operation comes with the condition under which the kernel can perform it
(`CanCreate`, `CanRename`). A call may still fail when its condition
holds, for a reason the model does not track: permissions, space, quotas.
-/

set_option autoImplicit false

namespace Enuwatch

open Enuwatch.Lib

/-- The component names of an absolute location, root first. -/
abbrev Loc := List Bytes

/-- What a location holds. -/
inductive Entry where
  | dir (mode : ℕ)
  | file (ino : ℕ)
deriving DecidableEq, Repr

/-- A file system. Inodes are handed out in order, and a name refers to one in use. -/
structure Fs where
  cwd : Loc
  entries : Loc → Option Entry
  data : ℕ → Bytes
  nextIno : ℕ
  allocated : ∀ loc ino, entries loc = some (.file ino) → ino < nextIno

/-! ## Paths -/

/-- The part of a string that a C function sees. -/
def cstr (path : Bytes) : Bytes := path.takeWhile (· ≠ 0)

/-- Go to one component of a path. -/
def descend (here : Loc) (component : Bytes) : Loc :=
  if component = [] ∨ component = [46] then here
  else if component = [46, 46] then here.dropLast
  else here ++ [component]

/-- The location a path names, seen from the current directory. -/
def locate (cwd : Loc) (path : Bytes) : Loc :=
  ((cstr path).splitOn 47).foldl descend (if (cstr path).head? = some 47 then [] else cwd)

namespace Fs

/-- The root is a directory; any other location is one when it holds one. -/
def isDir (fs : Fs) (loc : Loc) : Bool :=
  match loc, fs.entries loc with
  | [], _ => true
  | _, some (.dir _) => true
  | _, _ => false

/-- The contents of the regular file at a location. -/
def fileAt (fs : Fs) (loc : Loc) : Option Bytes :=
  match fs.entries loc with
  | some (.file ino) => some (fs.data ino)
  | _ => none

/-- What a reader of the tree sees at a location. -/
inductive Seen where
  | dir
  | file (contents : Bytes)
deriving DecidableEq, Repr

def seenAt (fs : Fs) (loc : Loc) : Option Seen :=
  match fs.entries loc with
  | some (.dir _) => some .dir
  | some (.file ino) => some (.file (fs.data ino))
  | none => none

/-! ## Operations -/

/-- A new name can be made here: nothing has it yet, and its parent is a directory. -/
def CanCreate (fs : Fs) (loc : Loc) : Prop :=
  loc ≠ [] ∧ fs.entries loc = none ∧ fs.isDir loc.dropLast = true

instance (fs : Fs) (loc : Loc) : Decidable (fs.CanCreate loc) :=
  inferInstanceAs (Decidable (_ ∧ _ ∧ _))

/-- `mkdir` where nothing is. -/
def mkdir (loc : Loc) (mode : ℕ) (fs : Fs) : Fs :=
  { fs with
    entries := Function.update fs.entries loc (some (.dir mode))
    allocated := by
      intro other ino entry
      by_cases same : other = loc
      · simp [same] at entry
      · exact fs.allocated other ino (by simpa [same] using entry) }

/-- `mkstemp`: a new empty file on a new inode. -/
def create (loc : Loc) (fs : Fs) : Fs :=
  { fs with
    entries := Function.update fs.entries loc (some (.file fs.nextIno))
    data := Function.update fs.data fs.nextIno []
    nextIno := fs.nextIno + 1
    allocated := by
      intro other ino entry
      by_cases same : other = loc
      · simp [same] at entry
        omega
      · have old := fs.allocated other ino (by simpa [same] using entry)
        omega }

/-- `ftruncate` on an open file. -/
def truncate (ino size : ℕ) (fs : Fs) : Fs :=
  { fs with data := Function.update fs.data ino (resize (fs.data ino) size) }

/-- Bytes stored through a mapping; a null mapping takes none. -/
def store (ino : Option ℕ) (offset : ℕ) (block : Bytes) (fs : Fs) : Fs :=
  match ino with
  | none => fs
  | some ino => { fs with data := Function.update fs.data ino (overwrite (fs.data ino) offset block) }

/-- `rename` of a regular file: the target is free or a regular file, in a directory. -/
def CanRename (fs : Fs) (src dst : Loc) : Prop :=
  (fs.fileAt src).isSome ∧ dst ≠ [] ∧ fs.isDir dst.dropLast = true ∧
    (fs.entries dst = none ∨ (fs.fileAt dst).isSome)

instance (fs : Fs) (src dst : Loc) : Decidable (fs.CanRename src dst) :=
  inferInstanceAs (Decidable (_ ∧ _ ∧ _ ∧ (_ ∨ _)))

def rename (src dst : Loc) (fs : Fs) : Fs :=
  if src = dst then fs
  else
    { fs with
      entries := Function.update (Function.update fs.entries dst (fs.entries src)) src none
      allocated := by
        intro other ino entry
        by_cases here : other = src
        · simp [here] at entry
        · by_cases there : other = dst
          · subst there
            exact fs.allocated src ino (by simpa [here] using entry)
          · exact fs.allocated other ino (by simpa [here, there] using entry) }

/-- `unlink` of a regular file; a directory stays. -/
def unlink (loc : Loc) (fs : Fs) : Fs :=
  match fs.entries loc with
  | some (.file _) =>
      { fs with
        entries := Function.update fs.entries loc none
        allocated := by
          intro other ino entry
          by_cases same : other = loc
          · simp [same] at entry
          · exact fs.allocated other ino (by simpa [same] using entry) }
  | _ => fs

/-! ## What the operations leave alone -/

@[simp] theorem cwd_mkdir (fs : Fs) (loc : Loc) (mode : ℕ) : (fs.mkdir loc mode).cwd = fs.cwd := rfl
@[simp] theorem cwd_create (fs : Fs) (loc : Loc) : (fs.create loc).cwd = fs.cwd := rfl
@[simp] theorem cwd_truncate (fs : Fs) (ino size : ℕ) : (fs.truncate ino size).cwd = fs.cwd := rfl

@[simp] theorem cwd_store (fs : Fs) (ino : Option ℕ) (offset : ℕ) (block : Bytes) :
    (fs.store ino offset block).cwd = fs.cwd := by
  cases ino <;> rfl

@[simp] theorem cwd_rename (fs : Fs) (src dst : Loc) : (fs.rename src dst).cwd = fs.cwd := by
  unfold rename
  split <;> rfl

@[simp] theorem cwd_unlink (fs : Fs) (loc : Loc) : (fs.unlink loc).cwd = fs.cwd := by
  unfold unlink
  split <;> rfl

@[simp] theorem entries_truncate (fs : Fs) (ino size : ℕ) :
    (fs.truncate ino size).entries = fs.entries := rfl

@[simp] theorem entries_store (fs : Fs) (ino : Option ℕ) (offset : ℕ) (block : Bytes) :
    (fs.store ino offset block).entries = fs.entries := by
  cases ino <;> rfl

@[simp] theorem data_mkdir (fs : Fs) (loc : Loc) (mode : ℕ) :
    (fs.mkdir loc mode).data = fs.data := rfl

@[simp] theorem data_rename (fs : Fs) (src dst : Loc) : (fs.rename src dst).data = fs.data := by
  unfold rename
  split <;> rfl

@[simp] theorem data_unlink (fs : Fs) (loc : Loc) : (fs.unlink loc).data = fs.data := by
  unfold unlink
  split <;> rfl

@[simp] theorem nextIno_mkdir (fs : Fs) (loc : Loc) (mode : ℕ) :
    (fs.mkdir loc mode).nextIno = fs.nextIno := rfl

@[simp] theorem nextIno_create (fs : Fs) (loc : Loc) :
    (fs.create loc).nextIno = fs.nextIno + 1 := rfl

@[simp] theorem nextIno_truncate (fs : Fs) (ino size : ℕ) :
    (fs.truncate ino size).nextIno = fs.nextIno := rfl

@[simp] theorem nextIno_store (fs : Fs) (ino : Option ℕ) (offset : ℕ) (block : Bytes) :
    (fs.store ino offset block).nextIno = fs.nextIno := by
  cases ino <;> rfl

@[simp] theorem nextIno_rename (fs : Fs) (src dst : Loc) :
    (fs.rename src dst).nextIno = fs.nextIno := by
  unfold rename
  split <;> rfl

@[simp] theorem nextIno_unlink (fs : Fs) (loc : Loc) : (fs.unlink loc).nextIno = fs.nextIno := by
  unfold unlink
  split <;> rfl

/-! ## What the operations change -/

section Contents

variable {fs fs' : Fs} {loc src dst : Loc} {ino : ℕ}

/-- The contents at a location depend on its entry and on the inode it refers to. -/
theorem fileAt_congr (entry : fs'.entries loc = fs.entries loc)
    (data : ∀ ino, fs.entries loc = some (.file ino) → fs'.data ino = fs.data ino) :
    fs'.fileAt loc = fs.fileAt loc := by
  unfold fileAt
  rw [entry]
  split
  · rename_i ino here
    rw [data ino here]
  · rfl

theorem fileAt_create (other : loc ≠ dst) : (fs.create dst).fileAt loc = fs.fileAt loc := by
  refine fileAt_congr (by simp [create, other]) fun ino here => ?_
  simp [create, (fs.allocated loc ino here).ne]

theorem fileAt_truncate (elsewhere : fs.entries loc ≠ some (.file ino)) (size : ℕ) :
    (fs.truncate ino size).fileAt loc = fs.fileAt loc := by
  refine fileAt_congr (by simp) fun other here => ?_
  have different : other ≠ ino := by
    rintro rfl
    exact elsewhere here
  simp [truncate, different]

theorem fileAt_mkdir (free : fs.entries dst = none) (mode : ℕ) :
    (fs.mkdir dst mode).fileAt loc = fs.fileAt loc := by
  by_cases here : loc = dst
  · subst here
    simp [fileAt, mkdir, free]
  · exact fileAt_congr (by simp [mkdir, here]) fun _ _ => rfl

theorem fileAt_rename_dst (apart : src ≠ dst) : (fs.rename src dst).fileAt dst = fs.fileAt src := by
  simp [fileAt, rename, apart, Ne.symm apart]

theorem fileAt_rename_ne (notSrc : loc ≠ src) (notDst : loc ≠ dst) :
    (fs.rename src dst).fileAt loc = fs.fileAt loc := by
  refine fileAt_congr ?_ fun _ _ => by simp
  unfold rename
  split
  · rfl
  · simp [notSrc, notDst]

theorem fileAt_unlink_ne (other : loc ≠ dst) : (fs.unlink dst).fileAt loc = fs.fileAt loc := by
  refine fileAt_congr ?_ fun _ _ => by simp
  unfold unlink
  split
  · simp [other]
  · rfl

theorem isDir_iff : fs.isDir loc = true ↔ loc = [] ∨ ∃ mode, fs.entries loc = some (.dir mode) := by
  unfold isDir
  split
  · simp
  · rename_i mode _ found
    simp [found]
  · rename_i nonroot other
    constructor
    · simp
    · rintro (rfl | ⟨mode, found⟩)
      · exact (nonroot rfl).elim
      · exact absurd found (other mode)

theorem seenAt_eq_dir : fs.seenAt loc = some .dir ↔ ∃ mode, fs.entries loc = some (.dir mode) := by
  unfold seenAt
  cases fs.entries loc with
  | none => simp
  | some entry => cases entry <;> simp

theorem seenAt_eq_none : fs.seenAt loc = none ↔ fs.entries loc = none := by
  unfold seenAt
  cases fs.entries loc with
  | none => simp
  | some entry => cases entry <;> simp

/-- What a location shows depends on its entry and on the inode it refers to. -/
theorem seenAt_congr (entry : fs'.entries loc = fs.entries loc)
    (data : ∀ ino, fs.entries loc = some (.file ino) → fs'.data ino = fs.data ino) :
    fs'.seenAt loc = fs.seenAt loc := by
  unfold seenAt
  rw [entry]
  split
  · rfl
  · rename_i ino here
    rw [data ino here]
  · rfl

/-- Only this name refers to the inode. -/
structure Private (fs : Fs) (loc : Loc) (ino : ℕ) : Prop where
  entry : fs.entries loc = some (.file ino)
  only : ∀ other, fs.entries other = some (.file ino) → other = loc

namespace Private

theorem congr (priv : fs.Private loc ino) (entries : fs'.entries = fs.entries) :
    fs'.Private loc ino :=
  ⟨by rw [entries]; exact priv.entry, by rw [entries]; exact priv.only⟩

theorem fileAt (priv : fs.Private loc ino) : fs.fileAt loc = some (fs.data ino) := by
  simp [Fs.fileAt, priv.entry]

/-- A new file is private. -/
theorem created (fs : Fs) (dst : Loc) : (fs.create dst).Private dst fs.nextIno := by
  refine ⟨by simp [create], fun other here => ?_⟩
  by_contra different
  have old := fs.allocated other fs.nextIno (by simpa [create, different] using here)
  exact lt_irrefl _ old

theorem create (priv : fs.Private loc ino) (free : fs.entries dst = none) :
    (fs.create dst).Private loc ino := by
  have apart : loc ≠ dst := by
    rintro rfl
    simp [priv.entry] at free
  refine ⟨by simpa [Fs.create, apart] using priv.entry, fun other here => ?_⟩
  by_cases new : other = dst
  · have old := fs.allocated loc ino priv.entry
    subst new
    simp [Fs.create] at here
    omega
  · exact priv.only other (by simpa [Fs.create, new] using here)

theorem mkdir (priv : fs.Private loc ino) (free : fs.entries dst = none) (mode : ℕ) :
    (fs.mkdir dst mode).Private loc ino := by
  have apart : loc ≠ dst := by
    rintro rfl
    simp [priv.entry] at free
  refine ⟨by simpa [Fs.mkdir, apart] using priv.entry, fun other here => ?_⟩
  by_cases new : other = dst
  · subst new
    simp [Fs.mkdir] at here
  · exact priv.only other (by simpa [Fs.mkdir, new] using here)

/-- A rename between other names leaves a private file private. -/
theorem rename (priv : fs.Private loc ino) (notSrc : loc ≠ src) (notDst : loc ≠ dst) :
    (fs.rename src dst).Private loc ino := by
  unfold Fs.rename
  split
  · exact priv
  · refine ⟨by simpa [notSrc, notDst] using priv.entry, fun other here => ?_⟩
    by_cases gone : other = src
    · simp [gone] at here
    · by_cases new : other = dst
      · subst new
        exact absurd (priv.only src (by simpa [gone] using here)) (Ne.symm notSrc)
      · exact priv.only other (by simpa [gone, new] using here)

end Private

end Contents

end Fs

end Enuwatch

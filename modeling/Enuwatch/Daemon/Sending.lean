import Enuwatch.Daemon.RoundTrip
import Enuwatch.Lib.Path
import Enuwatch.Tracked
import Mathlib.Data.List.TakeWhile

/-!
# The messages of a tree

A tree is sent with one message for each of its nodes, a node after its parent (`Sending`). The
path in the message of a node leads, from the directory the daemon runs in, through the names of
the nodes above it (`locate_sentPath`), so the location of a child is right below that of its
parent (`Tree.path_of_parent`).
-/

set_option autoImplicit false

namespace Enuwatch

open Enuwatch.Lib

/-! ## Paths in a tree -/

theorem cstr_of_notMem {path : Bytes} (clean : 0 ∉ path) : cstr path = path := by
  refine List.takeWhile_eq_self_iff.2 fun b among => ?_
  simp only [decide_eq_true_eq]
  rintro rfl
  exact clean among

theorem foldl_descend {names : List Bytes} (named : ∀ name ∈ names, FileName name) (here : Loc) :
    names.foldl descend here = here ++ names := by
  induction names generalizing here with
  | nil => simp
  | cons name names ih =>
      obtain ⟨some, -, -, single, double⟩ := named name List.mem_cons_self
      have down : descend here name = here ++ [name] := by simp [descend, some, single, double]
      rw [List.foldl_cons, down, ih fun other among => named other (List.mem_cons_of_mem _ among)]
      simp

/-- The text of names of entries leads through these names. -/
theorem locate_joinPath {names : List Bytes} (named : ∀ name ∈ names, FileName name)
    (some : names ≠ []) (cwd : Loc) : locate cwd (joinPath names) = cwd ++ names := by
  have whole : cstr (joinPath names) = joinPath names := by
    refine cstr_of_notMem fun zero => ?_
    obtain bad | ⟨name, among, inside⟩ := mem_joinPath zero
    · exact absurd bad (by decide)
    · exact (named name among).2.2.1 inside
  have relative : (joinPath names).head? ≠ .some 47 := by
    obtain _ | ⟨first, rest⟩ := names
    · exact absurd rfl some
    · obtain ⟨nonempty, clean, -⟩ := named first List.mem_cons_self
      obtain _ | ⟨b, first⟩ := first
      · exact absurd rfl nonempty
      · rw [joinPath_cons]
        simp only [List.cons_append, List.head?_cons, ne_eq, Option.some.injEq]
        rintro rfl
        exact clean List.mem_cons_self
  rw [locate, whole, if_neg relative,
    splitOn_joinPath some fun name among => (named name among).2.1, foldl_descend named]

namespace Tree

variable {N : Type} (T : Tree N)

/-- The name of a node, if it has one. -/
def nameOf (n : N) : List Bytes := if (T.info n).name = [] then [] else [(T.info n).name]

/-- The names on the way to a node of a given depth. -/
def namesTo : ℕ → N → List Bytes
  | 0, n => T.nameOf n
  | depth + 1, n => ((T.parent n).elim [] (namesTo depth)) ++ T.nameOf n

/-- The path of a node, from its root on. -/
def path (n : N) : List Bytes := T.namesTo (T.depth n) n

/-- The text of the path, as `send_datamsg` sends it. -/
def sentPath (n : N) : Bytes := joinPath (if T.path n = [] then [dot] else T.path n)

variable {T}

theorem path_root : T.path T.root = T.nameOf T.root := by
  rw [path]
  cases T.depth T.root with
  | zero => rfl
  | succ depth => rw [namesTo, parent_root, Option.elim_none, List.nil_append]

theorem fileName_of_parent {c p : N} (parent : T.parent c = some p) :
    FileName (T.info c).name :=
  (T.named c).resolve_left fun top => ne_root_of_parent parent top.1

/-- The path of a child ends with its name. -/
theorem path_of_parent {c p : N} (parent : T.parent c = some p) :
    T.path c = T.path p ++ [(T.info c).name] := by
  have named : T.nameOf c = [(T.info c).name] := if_neg (fileName_of_parent parent).1
  rw [path, T.depth_of_parent parent, namesTo, parent, Option.elim_some, named]
  rfl

theorem fileName_path (n : N) : ∀ name ∈ T.path n, FileName name := by
  induction n using T.from_root with
  | root =>
      intro name among
      rw [path_root, nameOf] at among
      split at among
      · cases among
      · rename_i some
        obtain rfl := List.mem_singleton.1 among
        exact (T.named T.root).resolve_left fun top => some top.2
  | child c p parent ih =>
      rw [path_of_parent parent]
      intro name among
      obtain above | own := List.mem_append.1 among
      · exact ih name above
      · rw [List.mem_singleton.1 own]
        exact fileName_of_parent parent

/-- Only the root has its path. -/
theorem path_eq_root {n : N} : T.path n = T.path T.root ↔ n = T.root := by
  refine ⟨fun same => ?_, fun top => by rw [top]⟩
  have long : ∀ n, (T.path T.root).length ≤ (T.path n).length := by
    intro n
    induction n using T.from_root with
    | root => exact le_rfl
    | child c p parent ih =>
        rw [path_of_parent parent, List.length_append]
        omega
  by_contra below
  obtain ⟨p, parent⟩ := exists_parent below
  have longer := long p
  rw [← same, path_of_parent parent, List.length_append, List.length_singleton] at longer
  omega

/-- No two children of a directory have the same name. -/
def Distinct (T : Tree N) : Prop :=
  ∀ c c' p, T.parent c = some p → T.parent c' = some p → (T.info c).name = (T.info c').name → c = c'

/-- A path belongs to one node. -/
theorem Distinct.path_injective (distinct : T.Distinct) {n m : N} (same : T.path n = T.path m) :
    n = m := by
  induction n using T.from_root generalizing m with
  | root => exact (path_eq_root.1 same.symm).symm
  | child c p parent ih =>
      have below : m ≠ T.root := by
        rintro rfl
        exact ne_root_of_parent parent (path_eq_root.1 same)
      obtain ⟨q, above⟩ := exists_parent below
      rw [path_of_parent parent, path_of_parent above] at same
      obtain ⟨front, last⟩ := List.append_inj' same rfl
      obtain rfl := ih front
      exact distinct c m p parent above (List.singleton_inj.1 last)

/-- The path that is sent leads to the node. -/
theorem locate_sentPath (cwd : Loc) (n : N) : locate cwd (T.sentPath n) = cwd ++ T.path n := by
  rw [sentPath]
  split
  · rename_i empty
    rw [empty, List.append_nil]
    rfl
  · rename_i some
    exact locate_joinPath (fileName_path n) some cwd

theorem directory_of_parent {c p : N} (parent : T.parent c = some p) :
    (T.info p).ftype ≠ .regular := by
  intro regular
  have child := T.mem_children.2 parent
  rw [T.children_of_regular regular] at child
  cases child

end Tree

namespace Daemon

/-! ## One message for each node -/

/-- The successful calls of `send_datamsg` for the nodes of a tree, in the order in which they
write. -/
structure Sending {N : Type} (T : Tree N) where
  order : List N
  send : N → Sent
  info : ∀ n, (send n).call.info = T.info n
  path : ∀ n, (send n).call.relPath = some (T.sentPath n)
  nodup : order.Nodup
  all : ∀ n, n ∈ order
  /-- `recurse` spawns the tasks of the children after it has sent their parent. -/
  parents : ∀ before n after, order = before ++ n :: after → ∀ p, T.parent n = some p → p ∈ before
  /-- A call that succeeds has mapped the whole file, so its size is that of a mapping. -/
  size : ∀ n, (T.info n).ftype = .regular → (T.info n).fsize.toNat < 2 ^ 63

namespace Sending

variable {N : Type} {T : Tree N} (s : Sending T)

theorem sent_path (n : N) : (s.send n).path = T.sentPath n := by
  rw [Sent.path, s.path n, Option.getD_some]

/-- What the message of a node is for. -/
theorem op_eq (n : N) : (s.send n).op =
    if (T.info n).ftype = .regular then .rename (T.sentPath n) (s.send n).call.contents
    else .mkdir (T.sentPath n) 0 := by
  rw [Sent.op, s.info n, s.sent_path n]

/-- The message of a parent makes its directory. -/
theorem op_of_parent {c p : N} (parent : T.parent c = some p) :
    (s.send p).op = .mkdir (T.sentPath p) 0 := by
  rw [s.op_eq, if_neg (Tree.directory_of_parent parent)]

theorem op_root : (s.send T.root).op = .mkdir (T.sentPath T.root) 0 := by
  rw [s.op_eq, if_neg (by simp [T.root_directory])]

theorem fsize_lt (n : N) (regular : isRegular (s.send n).message.hdr) :
    fsize (s.send n).message.hdr < 2 ^ 63 := by
  have file := (s.send n).isRegular_iff.1 regular
  simp only [fsize, Sent.message, DataMessage.decode_encode, SendCall.header, s.info n]
  exact s.size n (s.info n ▸ file)

/-- The root comes first. -/
theorem order_head : ∃ rest, s.order = T.root :: rest := by
  obtain ⟨before, after, split⟩ := List.append_of_mem (s.all T.root)
  obtain _ | ⟨first, between⟩ := before
  · exact ⟨after, split⟩
  · have front : s.order = [] ++ first :: (between ++ T.root :: after) := split
    have apart : first ≠ T.root := by
      rintro rfl
      have nodup := s.nodup
      simp [split] at nodup
    obtain ⟨p, parent⟩ := Tree.exists_parent apart
    cases s.parents [] first _ front p parent

theorem flatMap_bytes (nodes : List N) : (nodes.flatMap fun n => (s.send n).bytes) =
    (nodes.map fun n => (s.send n).message).flatMap Message.bytes := by
  simp [List.flatMap_map]

theorem finals_issuedAfter (nodes : List N) :
    finals (issuedAfter (nodes.flatMap fun n => (s.send n).bytes)) =
      nodes.map fun n => ⟨(s.send n).call.seq, (s.send n).op⟩ := by
  rw [s.flatMap_bytes, issuedAfter_messages, finals_messages, List.map_map]
  simp [Function.comp_def]

theorem phaseAfter_flatMap (nodes : List N) :
    phaseAfter (nodes.flatMap fun n => (s.send n).bytes) = .header [] := by
  rw [s.flatMap_bytes, phaseAfter_messages]

end Sending

/-- A directory `r` with a file `a` of two bytes. -/
def pairTree : Tree Bool where
  root := false
  parent n := if n then some false else none
  children n := if n then [] else [true]
  info n :=
    if n then { name := [97], perms := 420, ftype := .regular, fsize := 2 }
    else { name := [114], perms := 493, ftype := .directory }
  depth n := if n then 1 else 0
  mem_children := by decide
  nodup_children := by decide
  parent_eq_none := by decide
  depth_of_parent := by decide
  kept := by decide
  children_of_regular := by decide
  root_directory := by decide
  named := by decide

/-- The calls that send the two nodes. -/
def pairCall (n : Bool) : SendCall where
  seq := if n then 1 else 0
  info := pairTree.info n
  relPath := some (pairTree.sentPath n)
  file := some [1, 2]
  pad := ⟨0, 0⟩
  writes := if n then [.wrote 24, .wrote 3, .wrote 2] else [.wrote 24, .wrote 1]
  oks := [true]

def pairSending : Sending pairTree where
  order := [false, true]
  send n :=
    { call := pairCall n
      result := (sendDatamsg (pairCall n)).getD ⟨.fatal, [], []⟩
      ran := by cases n <;> decide +kernel
      sent := by cases n <;> decide +kernel }
  info _ := rfl
  path _ := rfl
  nodup := by decide
  all := by decide
  parents before n after split p parent := by
    cases n with
    | false => cases parent
    | true =>
        cases parent
        obtain _ | ⟨first, rest⟩ := before
        · cases split
        · obtain rfl : false = first := (List.cons.inj split).1
          exact List.mem_cons_self
  size := by decide

end Daemon

end Enuwatch

import Enuwatch.EndToEnd
import Enuwatch.Scan.Handover

/-!
# From disk to disk

`scan_dir` reads a tree from the local disk, `sync_with_remote` sends it and the daemon stores it.
When the client has reported success and its bytes have arrived, the daemon's file system holds a
copy of the directories and regular files of the tree below the directory the daemon runs in, and
is otherwise as it was (`disk_mirrored`).
-/

set_option autoImplicit false

namespace Enuwatch

open Enuwatch.Lib Enuwatch.Daemon Enuwatch.Scan

/-- A call that went through for a file that is as it was when it was scanned has sent it. -/
theorem SendCall.contents_of_sent {call : SendCall} {r : SendRun} {data : Bytes}
    (ran : sendDatamsg call = some r) (sent : r.outcome = .returned true)
    (regular : call.info.ftype = .regular) (reads : ∀ file ∈ call.file, file = data)
    (size : data.length = call.info.fsize.toNat) : call.contents = data := by
  cases sendDatamsg_cases ran with
  | nameless | long | header | path | unopened => cases sent
  | contents named short regular opened inner =>
      obtain rfl := reads _ opened
      rw [SendCall.contents_eq_mapped regular opened, mapped, ← size, resize_self]
  | bare named short empty =>
      have zero : call.info.fsize = 0 := by
        by_contra some_
        exact empty ⟨regular, UInt64.pos_iff_ne_zero.2 some_⟩
      rw [zero, UInt64.toNat_zero] at size
      rw [SendCall.contents_eq_nil empty, List.eq_nil_of_length_eq_zero size]

/-- What stands on the remote side after a copy of the tree at `root`: its directories and regular
files below the working directory, under the name of the root, and everything else as it was. -/
structure Copied (disk : Disk) (root : Loc) (data : Loc → Bytes) (before after : Fs) : Prop where
  dirs : ∀ names, disk.isDir (root ++ names) = true →
    after.seenAt (before.cwd ++ treePath root names) = some .dir
  files : ∀ names perms size, disk.items (root ++ names) = some (.file perms size) →
    after.seenAt (before.cwd ++ treePath root names) = some (.file (data (root ++ names)))
  rest : ∀ loc, (∀ names item, disk.items (root ++ names) = some item →
      Kept (item.asM []) = true → before.cwd ++ treePath root names ≠ loc) →
    after.seenAt loc = before.seenAt loc

section Copies

variable {disk : Disk} {links : ℕ} {order : Sorting} {root : Loc} {data : Loc → Bytes}
  {w : Worklist} {grown : Grown (scanned disk links root w)} {table : Slots PipeEnd} {pid : ℤ}
  {basePort : UInt16} {s : Sync.Client (NodeOf (scanned disk links root w))}
  {inherited : List Bool} {fs : Fs} {dmsg : DaemonInitMessage} {d : Server}

/-- The client calls `send_datamsg` on the tree it has scanned: the paths come from `fs::relative`
and the files that are mapped are those of the disk. -/
structure Faithful (disk : Disk) (links : ℕ) (root : Loc) (data : Loc → Bytes) (w : Worklist)
    (sends : List (Sync.Send (NodeOf (scanned disk links root w)))) : Prop where
  path : ∀ e ∈ sends, e.call.relPath = relPath disk links root e.node.1
  file : ∀ e ∈ sends, ∀ file ∈ e.call.file, file = data (root ++ e.node.1)

/-- The contents that a client that returned true has sent for a file. -/
theorem contents_sent (client : Reachable (Sync.step ((scanned disk links root w).asTree grown))
      (Sync.start ((scanned disk links root w).asTree grown) table pid basePort) s)
    (returned : s.status = .returned true) (faithful : Faithful disk links root data w s.sends)
    {n : NodeOf (scanned disk links root w)}
    (regular : (((scanned disk links root w).asTree grown).info n).ftype = .regular)
    (size : (data (root ++ n.1)).length =
      (((scanned disk links root w).asTree grown).info n).fsize.toNat) :
    s.contentsOf n = data (root ++ n.1) := by
  obtain ⟨-, sent⟩ := Sync.sent_of_returned client returned
  obtain ⟨e, member, rfl, success⟩ := sent n
  have info := (Sync.reachable_logged client).info e member
  have called := (Sync.reachable_logged client).calls (by simp [returned])
  rw [Sync.contentsOf_eq client member]
  exact SendCall.contents_of_sent ((Sync.reachable_framed client).ran e (called ▸ member)) success
    (info ▸ regular) (faithful.file e member) (info ▸ size)

/-- **A synchronisation that reports success has copied the tree.** The tree has no links and its
files keep their sizes while the client runs; the client has scanned it and sent it over any number
of connections in any interleaving; `sync_with_remote` has returned true, its bytes have arrived
and the daemon is still there. Then every directory and every regular file of the tree is below the
directory the daemon runs in, with its contents, and nothing else has changed there. -/
theorem disk_mirrored (plain : PlainTree disk root)
    (sizes : ∀ loc perms size, disk.items loc = some (.file perms (some size)) →
      (data loc).length = size.toNat)
    (scan : Reachable (scanStep disk links order root) scanStart w) (over_ : w.stack = [])
    (client : Reachable (Sync.step ((scanned disk links root w).asTree grown))
      (Sync.start ((scanned disk links root w).asTree grown) table pid basePort) s)
    (returned : s.status = .returned true) (faithful : Faithful disk links root data w s.sends)
    (server : Reachable Daemon.step (Daemon.start inherited fs dmsg) d)
    (running : d.status = .running) (spared : Spared fs.cwd d.world.calls) {label : ℕ → ℕ}
    (wired : Wired s label d.world) : Copied disk root data fs d.world.fs := by
  have described := plain.describes scan over_
  have path := path_scanned grown plain.directory scan
  have mirrored := mirrored_of_wired (TrackedTree.asTree_distinct grown) client returned
    (fun e member => ?paths) server running spared wired
  case paths =>
    obtain ⟨item, found, -⟩ := described.exists_item (TrackedTree.node_eq e.node)
    rw [faithful.path e member, plain.relPath_eq (by simp [found]), Tree.sentPath, path]
  constructor
  case dirs =>
    intro names directory
    obtain ⟨perms, found⟩ := Disk.isDir_iff.1 directory
    obtain ⟨n, rfl, info⟩ := described.exists_node found rfl
    have seen := mirrored.nodes n
    rwa [path, nodeSeen, if_neg (by simp [TrackedTree.asTree, info, Item.asM])] at seen
  case files =>
    intro names perms size found
    obtain ⟨n, rfl, info⟩ := described.exists_node found rfl
    obtain ⟨size, rfl⟩ := Option.isSome_iff_exists.1 (plain.sized _ perms size found)
    have regular : (((scanned disk links root w).asTree grown).info n).ftype = .regular := by
      simp [TrackedTree.asTree, info, Item.asM]
    have seen := mirrored.nodes n
    rw [path, nodeSeen, if_pos regular] at seen
    rw [seen, contents_sent client returned faithful regular]
    simp [TrackedTree.asTree, info, Item.asM, sizes _ perms size found]
  case rest =>
    intro loc outside
    refine mirrored.rest loc fun n => ?_
    obtain ⟨item, found, info, kept⟩ := described.exists_item (TrackedTree.node_eq n)
    rw [path]
    refine outside n.1 item found ?_
    cases item <;> simp_all [Kept, Item.asM]

end Copies

/-! ## A sample run -/

/-- The directory `/a` with an empty directory `b` and a file `c` of two bytes. -/
def pairTable : List (Loc × Item) :=
  [([], .dir 0o755), ([[97]], .dir 0o755), ([[97], [98]], .dir 0o755),
    ([[97], [99]], .file 0o644 (some 2))]

theorem pairTable_ok : TableOk pairTable := by decide

def pairDisk : Disk := .ofTable pairTable pairTable_ok

def pairScan : Worklist :=
  (run (scanStep pairDisk 40 ⟨id, .refl⟩ [[97]]) scanStart [(), ()]).getD scanStart

theorem reachable_pairScan : Reachable (scanStep pairDisk 40 ⟨id, .refl⟩ [[97]]) scanStart pairScan :=
  ⟨[(), ()], by decide +kernel⟩

theorem grown_pairScan : Grown (scanned pairDisk 40 [[97]] pairScan) :=
  grown_of_scan (by decide) reachable_pairScan

def pairScanned : Tree (NodeOf (scanned pairDisk 40 [[97]] pairScan)) :=
  (scanned pairDisk 40 [[97]] pairScan).asTree grown_pairScan

/-- The call that sends the file. -/
def fileCall : SendCall where
  seq := 2
  info := { name := [99], perms := 420, ftype := .regular, fsize := 2 }
  relPath := some [97, 47, 99]
  file := some [7, 8]
  pad := ⟨0, 0⟩
  writes := [.wrote 24, .wrote 3, .wrote 2]
  oks := [true]

/-- The root opens its group; its children run on two threads. -/
def fileInputs : List Sync.Input :=
  Sync.goOn 0 5 ++ [Sync.sampleSend 0 0] ++ Sync.goOn 0 6 ++
    [.task 1 (.start 1), .task 2 (.start 0)] ++ Sync.goOn 1 5 ++
    [Sync.sampleSend 1 1] ++ Sync.goOn 2 5 ++ Sync.goOn 1 4 ++
    [.task 2 (.send fileCall)] ++ Sync.goOn 2 5 ++ Sync.goOn 0 1 ++
    [.terminate true (some (.signaled sigterm))]

/-- The message of the file. -/
def fileMessage : Bytes := (fileCall.header [97, 47, 99]).encode ⟨0, 0⟩ ++ [97, 47, 99, 7, 8]

/-- The daemon takes the messages of the directories from two connections, and then the file from
the first one. -/
def hearInputs (first second : List Net.SysRead) : List Daemon.Input :=
  twoReads first second ++
    [.poll [{}, {}, { input := true }, {}], .round {}, .round {},
      .round { reads := [.data (fileMessage.take 24), .data ((fileMessage.drop 24).take 3),
        .data [7, 8]] }]

/-- The contents of the disk. -/
def pairData (loc : Loc) : Bytes := if loc = [[97], [99]] then [7, 8] else []

theorem disk_mirrored_sample :
    ∃ s d, run (Sync.step pairScanned) (Sync.start pairScanned
        ⟨[some .other, some .other, some .other]⟩ 7 50000) fileInputs = some s ∧
      run Daemon.step pairStart (hearInputs (sampleReads 0) (sampleReads 1)) = some d ∧
      Copied pairDisk [[97]] pairData sampleFs d.world.fs ∧
      d.world.fs.seenAt [[97], [99]] = some (.file [7, 8]) := by
  have sends : ∀ s ∈ run (Sync.step pairScanned) (Sync.start pairScanned
      ⟨[some .other, some .other, some .other]⟩ 7 50000) fileInputs,
      s.status = .returned true ∧
        (∀ e ∈ s.sends, e.call.relPath = relPath pairDisk 40 [[97]] e.node.1) ∧
        (∀ e ∈ s.sends, ∀ file ∈ e.call.file, file = pairData ([[97]] ++ e.node.1)) ∧
        (∀ e ∈ s.calls, e.thread < 2) ∧
        s.bytesOf 0 = sampleMessage 0 ++ fileMessage ∧ s.bytesOf 1 = sampleMessage 1 := by
    decide +kernel
  have hears : ∀ d ∈ run Daemon.step pairStart (hearInputs (sampleReads 0) (sampleReads 1)),
      d.status = .running ∧ Spared sampleFs.cwd d.world.calls ∧ d.world.accepted = 2 ∧
        d.world.received 0 = sampleMessage 0 ++ fileMessage ∧
        d.world.received 1 = sampleMessage 1 := by
    decide +kernel
  obtain ⟨s, reaches⟩ := Option.isSome_iff_exists.1 (show (run (Sync.step pairScanned)
    (Sync.start pairScanned ⟨[some .other, some .other, some .other]⟩ 7 50000)
      fileInputs).isSome by decide +kernel)
  obtain ⟨d, heard⟩ := Option.isSome_iff_exists.1 (show (run Daemon.step pairStart
    (hearInputs (sampleReads 0) (sampleReads 1))).isSome by decide +kernel)
  obtain ⟨returned, paths, files, threads, first, second⟩ := sends s reaches
  obtain ⟨running, spared, accepted, received₀, received₁⟩ := hears d heard
  have wired : Wired s id d.world := by
    constructor
    · intro k below
      obtain rfl | rfl : k = 0 ∨ k = 1 := by omega
      · rw [received₀, id, first]
      · rw [received₁, id, second]
    · intro thread wrote
      obtain ⟨e, called⟩ := List.exists_mem_of_ne_nil _ wrote
      obtain ⟨member, own⟩ := List.mem_filter.1 called
      have few := threads e member
      simp only [decide_eq_true_eq] at own
      exact ⟨thread, by omega, rfl⟩
  have sizes : ∀ loc perms size, pairDisk.items loc = some (.file perms (some size)) →
      (pairData loc).length = size.toNat := by
    intro loc perms size found
    have among := (lookup_iff pairTable_ok.1).1 found
    obtain ⟨rfl, -, rfl⟩ : loc = [[97], [99]] ∧ perms = 0o644 ∧ size = 2 := by
      simpa [pairTable] using among
    rfl
  have copied : Copied pairDisk [[97]] pairData sampleFs d.world.fs :=
    disk_mirrored (plainTree_ofTable (by decide) (by decide)) sizes reachable_pairScan
      (by decide +kernel) ⟨_, reaches⟩ returned ⟨paths, files⟩ ⟨_, heard⟩ running spared wired
  exact ⟨s, d, reaches, heard, copied, copied.files [[99]] 0o644 (some 2) (by decide +kernel)⟩

end Enuwatch

import Enuwatch.Lib.Binary64
import Enuwatch.Scan.Reproduction
import Enuwatch.Sender

/-!
# Progress

The scan adds up the sizes of the files in `total_` and `sum_total_`. Then the sends count the bytes
they have written: a tick adds them to the node's `done_` and, in a second step, to `sum_done_`. The
display draws a bar of `BAR_WIDTH` columns from the two sums.

No node ever counts more than its total (`Accounts`). The sums are of 64 bits and `sum_total_` may
have wrapped, so `sum_done_` can pass it. Whether it can depends on the sizes alone
(`progress_iff`).
-/

set_option autoImplicit false

namespace Enuwatch.Progress

open Enuwatch.Lib Enuwatch.Scan

/-! ## The bar -/

/-- `BAR_WIDTH`. -/
def barWidth : ℕ := 40

/-- The ratio that `total_stats` computes. -/
def ratio (done total : UInt64) : ℚ :=
  if total = 0 then 1 else toDouble (toDouble done.toNat / toDouble total.toNat)

/-- The columns that are filled. -/
def filled (done total : UInt64) : ℕ := ⌊toDouble (ratio done total * barWidth)⌋₊

theorem ratio_nonneg (done total : UInt64) : 0 ≤ ratio done total := by
  unfold ratio
  split
  · exact zero_le_one
  · exact toDouble_nonneg (div_nonneg (toDouble_nonneg (by positivity))
      (toDouble_nonneg (by positivity)))

/-- **A sum that is not passed fills at most the whole bar.** -/
theorem filled_le {done total : UInt64} (within : done ≤ total) : filled done total ≤ barWidth := by
  have one : toDouble 1 = 1 := by simpa using toDouble_natCast (n := 1) (by norm_num)
  have whole : toDouble barWidth = barWidth := toDouble_natCast (by norm_num [barWidth])
  have part : ratio done total ≤ 1 := by
    unfold ratio
    split
    · exact le_rfl
    · have less : toDouble done.toNat ≤ toDouble total.toNat :=
        toDouble_mono (by positivity) (by exact_mod_cast UInt64.le_iff_toNat_le.1 within)
      rw [← one]
      refine toDouble_mono (div_nonneg (toDouble_nonneg (by positivity))
        (toDouble_nonneg (by positivity))) ?_
      exact div_le_one_of_le₀ less (toDouble_nonneg (by positivity))
  have columns : toDouble (ratio done total * barWidth) ≤ toDouble barWidth :=
    toDouble_mono (mul_nonneg (ratio_nonneg done total) (by positivity))
      (mul_le_of_le_one_left (by positivity) part)
  rw [whole] at columns
  exact Nat.floor_le_of_le columns

/-! ## Counting -/

/-- A call of `send_datamsg` for a node: how it ends, the ticks it still makes, and the tick whose
second addition it still owes. -/
structure Sending where
  node : List Bytes
  outcome : SendEnd
  left : List ℕ
  owed : Option ℕ := none
deriving DecidableEq, Repr

/-- The counters of the nodes, the sum, and the calls. -/
structure Counters where
  done : List Bytes → UInt64 := fun _ => 0
  sumDone : UInt64 := 0
  sends : List Sending := []

inductive Act where
  /-- A task calls `send_datamsg` for a node. -/
  | send (node : List Bytes) (call : SendCall)
  /-- A call adds its next tick to `done_`. -/
  | done (i : ℕ)
  /-- It adds the same tick to `sum_done_`. -/
  | sum (i : ℕ)
deriving DecidableEq, Repr

section Definitions

variable (tree : TrackedTree) (opens : List Bytes → Bool)

/-- The calls and their ticks, in any order. Every node is sent once, with what the scan has read;
`opens` says which files can be opened and mapped. -/
def step (c : Counters) : Act → Option Counters
  | .send node call =>
      match tree.node node, sendDatamsg call with
      | some n, some r =>
          if call.info = n.info ∧ call.file.isSome = opens node ∧
              c.sends.all (·.node ≠ node) = true then
            some { c with sends := c.sends ++ [⟨node, r.outcome, r.ticks, none⟩] }
          else none
      | _, _ => none
  | .done i =>
      match c.sends[i]? with
      | some ⟨node, outcome, delta :: left, none⟩ =>
          some { c with
            done := Function.update c.done node (c.done node + .ofNat delta)
            sends := c.sends.set i ⟨node, outcome, left, some delta⟩ }
      | _ => none
  | .sum i =>
      match c.sends[i]? with
      | some ⟨node, outcome, left, some delta⟩ =>
          some { c with
            sumDone := c.sumDone + .ofNat delta
            sends := c.sends.set i ⟨node, outcome, left, none⟩ }
      | _ => none

/-- Every node was sent in full. -/
def AllSent (c : Counters) : Prop :=
  ∀ names, (tree.node names).isSome → ∃ s ∈ c.sends, s.node = names ∧
    s.outcome = .returned true ∧ s.left = [] ∧ s.owed = none

/-- What the display relies on, at every moment. -/
structure WithinTotals (c : Counters) : Prop where
  node : ∀ names n, tree.node names = some n → c.done names ≤ n.total
  sum : c.sumDone ≤ tree.sumTotal
  bar : filled c.sumDone tree.sumTotal ≤ barWidth
  complete : AllSent tree c → c.sumDone = tree.sumTotal

end Definitions

/-- A tree that `scan_dir` has built. -/
def Scanned (tree : TrackedTree) : Prop :=
  ∃ disk links order root w, (Disk.status disk links root).1 = .directory ∧
    Reachable (scanStep disk links order root) scanStart w ∧ w.stack = [] ∧
      tree = .replay (readM disk links root) w.events

theorem Scanned.facts {tree : TrackedTree} (scanned : Scanned tree) :
    (∀ names n, tree.node names = some n → n.total.toNat = fileBytes n.info) ∧
      ∀ files : List (List Bytes), files.Nodup → (∀ names, names ∈ files ↔ tree.IsFile names) →
        tree.sumTotal.toNat = total tree.sizeOf files % 2 ^ 64 := by
  obtain ⟨disk, links, order, root, w, directory, reachable, -, rfl⟩ := scanned
  rw [scanStep_eq_scanWith] at reachable
  obtain ⟨f, explored, rfl⟩ := reachable_image.1 reachable
  have tree := scan_tree directory explored
  refine ⟨?_, fun files nodup files_iff =>
    tree.sumTotal distinct_readEntries (readM_ne_regular directory) nodup files_iff⟩
  intro names n found
  obtain ⟨entry, -, rfl⟩ := tree.exists_entry found
  rw [nodeFor_total, nodeFor_info, fileBytes]
  split <;> rfl

section Run

variable {tree : TrackedTree} {opens : List Bytes → Bool} {c c' : Counters}

/-- What a step does. -/
inductive StepCase (tree : TrackedTree) (opens : List Bytes → Bool) (c : Counters) :
    Counters → Prop
  | send {node : List Bytes} {call : SendCall} {n : TrackedNode} {r : SendRun}
      (found : tree.node node = some n) (ran : sendDatamsg call = some r)
      (same : call.info = n.info) (mapped : call.file.isSome = opens node)
      (first : node ∉ c.sends.map (·.node)) :
      StepCase tree opens c { c with sends := c.sends ++ [⟨node, r.outcome, r.ticks, none⟩] }
  | done {i delta : ℕ} {node : List Bytes} {outcome : SendEnd} {left : List ℕ}
      (here : c.sends[i]? = some ⟨node, outcome, delta :: left, none⟩) :
      StepCase tree opens c { c with
        done := Function.update c.done node (c.done node + .ofNat delta)
        sends := c.sends.set i ⟨node, outcome, left, some delta⟩ }
  | sum {i delta : ℕ} {node : List Bytes} {outcome : SendEnd} {left : List ℕ}
      (here : c.sends[i]? = some ⟨node, outcome, left, some delta⟩) :
      StepCase tree opens c { c with
        sumDone := c.sumDone + .ofNat delta
        sends := c.sends.set i ⟨node, outcome, left, none⟩ }

theorem step_cases {act : Act} (stepped : step tree opens c act = some c') :
    StepCase tree opens c c' := by
  cases act with
  | send node call =>
      simp only [step] at stepped
      split at stepped
      · rename_i n r found ran
        obtain ⟨⟨same, mapped, first⟩, ends⟩ := Option.ite_none_right_eq_some.1 stepped
        cases ends
        exact .send found ran same mapped (by simpa using first)
      · cases stepped
  | done i =>
      simp only [step] at stepped
      split at stepped
      · rename_i here
        cases stepped
        exact .done here
      · cases stepped
  | sum i =>
      simp only [step] at stepped
      split at stepped
      · rename_i here
        cases stepped
        exact .sum here
      · cases stepped

/-- The bytes that a node can count. -/
def budget (opens : List Bytes → Bool) (names : List Bytes) (n : TrackedNode) : ℕ :=
  if n.info.ftype = .regular ∧ opens names = true then n.info.fsize.toNat else 0

/-- A call keeps within the size of its file, and comes up to it when it succeeds. -/
structure Sending.Fits (tree : TrackedTree) (opens : List Bytes → Bool) (done : List Bytes → UInt64)
    (s : Sending) : Prop where
  known : ∃ n, tree.node s.node = some n ∧
    (done s.node).toNat + total id s.left ≤ budget opens s.node n ∧
      (s.outcome = .returned true → (done s.node).toNat + total id s.left = fileBytes n.info)
  owed : s.owed.getD 0 ≤ (done s.node).toNat

/-- What a call has added to the sum. -/
def paid (done : List Bytes → UInt64) (s : Sending) : ℕ := (done s.node).toNat - s.owed.getD 0

/-- The counters agree with the calls. -/
structure Accounts (tree : TrackedTree) (opens : List Bytes → Bool) (c : Counters) : Prop where
  fits : ∀ s ∈ c.sends, s.Fits tree opens c.done
  idle : ∀ names, names ∉ c.sends.map (·.node) → c.done names = 0
  nodup : (c.sends.map (·.node)).Nodup
  sum : c.sumDone.toNat = total (paid c.done) c.sends % 2 ^ 64

theorem budget_le (names : List Bytes) (n : TrackedNode) :
    budget opens names n ≤ fileBytes n.info := by
  unfold budget fileBytes
  split
  · rename_i counted
    rw [if_pos counted.1]
  · exact Nat.zero_le _

theorem fileBytes_lt (info : M) : fileBytes info < 2 ^ 64 := by
  unfold fileBytes
  split
  · exact info.fsize.toNat_lt
  · norm_num

/-- Two calls are for two nodes. -/
theorem Accounts.node_ne (accounts : Accounts tree opens c) {i j : ℕ} {s t : Sending}
    (here : c.sends[i]? = some s) (there : c.sends[j]? = some t) (apart : j ≠ i) :
    t.node ≠ s.node := by
  intro same
  have first : (c.sends.map (·.node))[i]? = some s.node := by rw [List.getElem?_map, here]; rfl
  have second : (c.sends.map (·.node))[j]? = some t.node := by rw [List.getElem?_map, there]; rfl
  have inside : j < (c.sends.map (·.node)).length := (List.getElem?_eq_some_iff.1 second).1
  refine apart ((List.getElem?_inj inside accounts.nodup).1 ?_)
  rw [first, second, same]

theorem accounts_start : Accounts tree opens {} where
  fits := by simp
  idle _ _ := rfl
  nodup := List.nodup_nil
  sum := rfl

theorem Accounts.step_send (accounts : Accounts tree opens c) {node : List Bytes} {call : SendCall}
    {n : TrackedNode} {r : SendRun} (found : tree.node node = some n)
    (ran : sendDatamsg call = some r) (same : call.info = n.info)
    (mapped : call.file.isSome = opens node) (first : node ∉ c.sends.map (·.node)) :
    Accounts tree opens
      { c with sends := c.sends ++ [⟨node, r.outcome, r.ticks, none⟩] } := by
  have zero := accounts.idle node first
  obtain ⟨most, all⟩ := sendDatamsg_ticks ran
  rw [same, mapped] at most
  rw [same] at all
  refine ⟨?_, ?_, ?_, ?_⟩
  · intro s among
    rcases List.mem_append.1 among with old | new
    · exact accounts.fits s old
    · obtain rfl := List.mem_singleton.1 new
      exact ⟨⟨n, found, by simpa [zero, budget] using most, fun sent => by
        simpa [zero, fileBytes] using all sent⟩, Nat.zero_le _⟩
  · intro names absent
    exact accounts.idle names fun old => absent (by simp [List.mem_map.1 old])
  · simpa [List.nodup_append, accounts.nodup] using first
  · simpa [paid, zero] using accounts.sum

theorem toNat_add_ofNat {a : UInt64} {delta : ℕ} (small : a.toNat + delta < 2 ^ 64) :
    (a + .ofNat delta).toNat = a.toNat + delta := by
  rw [UInt64.toNat_add, UInt64.toNat_ofNat', Nat.add_mod_mod, Nat.mod_eq_of_lt small]

/-- What other nodes count does not matter. -/
theorem Sending.Fits.congr {done done' : List Bytes → UInt64} {s : Sending}
    (fits : s.Fits tree opens done) (same : done' s.node = done s.node) :
    s.Fits tree opens done' := by
  obtain ⟨known, owed⟩ := fits
  rw [← same] at known owed
  exact ⟨known, owed⟩

theorem Accounts.step_done (accounts : Accounts tree opens c) {i delta : ℕ} {node : List Bytes}
    {outcome : SendEnd} {left : List ℕ}
    (here : c.sends[i]? = some ⟨node, outcome, delta :: left, none⟩) :
    Accounts tree opens { c with
      done := Function.update c.done node (c.done node + .ofNat delta)
      sends := c.sends.set i ⟨node, outcome, left, some delta⟩ } := by
  obtain ⟨⟨n, found, within, whole⟩, -⟩ := accounts.fits _ (List.mem_of_getElem? here)
  simp only [total_cons, id] at within whole
  have small := within.trans_lt ((budget_le node n).trans_lt (fileBytes_lt n.info))
  have counted : (Function.update c.done node (c.done node + .ofNat delta) node).toNat =
      (c.done node).toNat + delta := by
    rw [Function.update_self]
    exact toNat_add_ofNat (by omega)
  have others : ∀ names, names ≠ node →
      Function.update c.done node (c.done node + .ofNat delta) names = c.done names :=
    fun names other => Function.update_of_ne other _ _
  have nodes := map_set_of_eq (g := (·.node)) (b := ⟨node, outcome, left, some delta⟩) here rfl
  refine ⟨?_, ?_, ?_, ?_⟩
  · refine forall_mem_set_of_ne ?_ ?_
    · intro j s apart there
      exact (accounts.fits s (List.mem_of_getElem? there)).congr
        (others s.node (accounts.node_ne here there apart))
    · refine ⟨⟨n, found, ?_, fun sent => ?_⟩, ?_⟩
      · dsimp only
        omega
      · have reached := whole sent
        dsimp only
        omega
      · dsimp only [Option.getD_some]
        omega
  · intro names absent
    rw [nodes] at absent
    have other : names ≠ node := by
      rintro rfl
      exact absent (List.mem_map.2 ⟨_, List.mem_of_getElem? here, rfl⟩)
    exact (others names other).trans (accounts.idle names absent)
  · rw [nodes]
    exact accounts.nodup
  · have moved := total_set_of_congr (f := paid c.done)
      (g := paid (Function.update c.done node (c.done node + .ofNat delta))) here
      (fun j s there apart => by
        rw [paid, others s.node (accounts.node_ne here there apart), paid])
      ⟨node, outcome, left, some delta⟩
    have same : paid (Function.update c.done node (c.done node + .ofNat delta))
        ⟨node, outcome, left, some delta⟩ = paid c.done ⟨node, outcome, delta :: left, none⟩ := by
      simp only [paid, counted, Option.getD_some, Option.getD_none]
      omega
    refine accounts.sum.trans (congrArg (· % 2 ^ 64) ?_)
    dsimp only
    omega

theorem Accounts.step_sum (accounts : Accounts tree opens c) {i delta : ℕ} {node : List Bytes}
    {outcome : SendEnd} {left : List ℕ}
    (here : c.sends[i]? = some ⟨node, outcome, left, some delta⟩) :
    Accounts tree opens { c with
      sumDone := c.sumDone + .ofNat delta
      sends := c.sends.set i ⟨node, outcome, left, none⟩ } := by
  obtain ⟨⟨n, found, within, whole⟩, owed⟩ := accounts.fits _ (List.mem_of_getElem? here)
  have nodes := map_set_of_eq (g := (·.node)) (b := ⟨node, outcome, left, none⟩) here rfl
  refine ⟨?_, ?_, ?_, ?_⟩
  · have settled : Sending.Fits tree opens c.done ⟨node, outcome, left, none⟩ :=
      ⟨⟨n, found, within, whole⟩, Nat.zero_le _⟩
    exact forall_mem_set accounts.fits settled i
  · rw [nodes]
    exact accounts.idle
  · rw [nodes]
    exact accounts.nodup
  · have moved := total_set (f := paid c.done) here ⟨node, outcome, left, none⟩
    have before : paid c.done ⟨node, outcome, left, some delta⟩ + delta =
        paid c.done ⟨node, outcome, left, none⟩ := by
      simp only [paid, Option.getD_some, Option.getD_none, Nat.sub_zero] at owed ⊢
      omega
    rw [UInt64.toNat_add, UInt64.toNat_ofNat', Nat.add_mod_mod, accounts.sum, Nat.mod_add_mod]
    refine congrArg (· % 2 ^ 64) ?_
    dsimp only
    omega

theorem Accounts.step (accounts : Accounts tree opens c) {act : Act}
    (stepped : step tree opens c act = some c') : Accounts tree opens c' := by
  cases step_cases stepped with
  | send found ran same mapped first => exact accounts.step_send found ran same mapped first
  | done here => exact accounts.step_done here
  | sum here => exact accounts.step_sum here

/-- **The counters agree with the calls at every moment.** -/
theorem reachable_accounts (reachable : Reachable (step tree opens) {} c) :
    Accounts tree opens c :=
  reachable.invariant accounts_start fun _ _ _ before stepped => before.step stepped

/-! ## The sums -/

/-- What a node that is not idle counts. -/
theorem Accounts.exists_node (accounts : Accounts tree opens c) {names : List Bytes}
    (counts : (c.done names).toNat ≠ 0) :
    ∃ n, tree.node names = some n ∧ n.info.ftype = .regular ∧ opens names = true ∧
      (c.done names).toNat ≤ n.info.fsize.toNat := by
  have sent : names ∈ c.sends.map (·.node) := by
    by_contra idle
    exact counts (by rw [accounts.idle names idle]; rfl)
  obtain ⟨s, among, rfl⟩ := List.mem_map.1 sent
  obtain ⟨⟨n, found, within, -⟩, -⟩ := accounts.fits s among
  unfold budget at within
  split at within
  · rename_i counted
    exact ⟨n, found, counted.1, counted.2, by omega⟩
  · omega

theorem Accounts.done_le (accounts : Accounts tree opens c) {names : List Bytes} {n : TrackedNode}
    (found : tree.node names = some n) : (c.done names).toNat ≤ fileBytes n.info := by
  by_cases zero : (c.done names).toNat = 0
  · omega
  · obtain ⟨n', found', regular, -, within⟩ := accounts.exists_node zero
    obtain rfl : n = n' := Option.some.inj (found.symm.trans found')
    rwa [fileBytes, if_pos regular]

section Files

variable {files : List (List Bytes)}

/-- The sum stays within the sizes of the files that can be mapped. -/
theorem Accounts.total_paid_le (accounts : Accounts tree opens c)
    (files_iff : ∀ names, names ∈ files ↔ tree.IsFile names) :
    total (paid c.done) c.sends ≤ total tree.sizeOf (files.filter opens) := by
  calc total (paid c.done) c.sends
      ≤ total (fun s => (c.done s.node).toNat) c.sends :=
        total_le_total fun s _ => Nat.sub_le _ _
    _ = total (fun names => (c.done names).toNat) (c.sends.map (·.node)) :=
        by rw [total_map]
    _ ≤ total (fun names => (c.done names).toNat) (files.filter opens) := by
        refine total_le_of_subset accounts.nodup fun names _ counts => ?_
        obtain ⟨n, found, regular, mapped, -⟩ := accounts.exists_node counts
        exact List.mem_filter.2 ⟨(files_iff names).2 ⟨n, found, regular⟩, mapped⟩
    _ ≤ total tree.sizeOf (files.filter opens) := by
        refine total_le_total fun names among => ?_
        obtain ⟨n, found, regular⟩ := (files_iff names).1 (List.mem_filter.1 among).1
        have within := accounts.done_le found
        rw [fileBytes, if_pos regular] at within
        simpa [TrackedTree.sizeOf, found] using within

/-- When every node was sent in full, the sum is that of all sizes. -/
theorem Accounts.total_paid_eq (accounts : Accounts tree opens c) (sent : AllSent tree c)
    (nodup : files.Nodup) (files_iff : ∀ names, names ∈ files ↔ tree.IsFile names) :
    total (paid c.done) c.sends = total tree.sizeOf files := by
  -- Every call is the one that was made for its node, and has ended.
  have ended : ∀ s ∈ c.sends, s.outcome = .returned true ∧ s.left = [] ∧ s.owed = none := by
    intro s among
    obtain ⟨⟨n, found, -, -⟩, -⟩ := accounts.fits s among
    obtain ⟨s', among', same, ends⟩ := sent s.node (by rw [found]; rfl)
    obtain rfl := List.inj_on_of_nodup_map accounts.nodup among' among same
    exact ends
  calc total (paid c.done) c.sends
      = total (fun s => (c.done s.node).toNat) c.sends := by
        refine total_congr fun s among => ?_
        rw [paid, (ended s among).2.2, Option.getD_none, Nat.sub_zero]
    _ = total (fun names => (c.done names).toNat) (c.sends.map (·.node)) := by rw [total_map]
    _ = total (fun names => (c.done names).toNat) files := by
        apply Nat.le_antisymm
        · refine total_le_of_subset accounts.nodup fun names _ counts => ?_
          obtain ⟨n, found, regular, -⟩ := accounts.exists_node counts
          exact (files_iff names).2 ⟨n, found, regular⟩
        · refine total_le_of_subset nodup fun names among _ => ?_
          obtain ⟨n, found, -⟩ := (files_iff names).1 among
          obtain ⟨s, sent, same, -⟩ := sent names (by rw [found]; rfl)
          exact List.mem_map.2 ⟨s, sent, same⟩
    _ = total tree.sizeOf files := by
        refine total_congr fun names among => ?_
        obtain ⟨n, found, regular⟩ := (files_iff names).1 among
        obtain ⟨s, made, rfl, -⟩ := sent names (by rw [found]; rfl)
        obtain ⟨⟨n', found', -, whole⟩, -⟩ := accounts.fits s made
        obtain rfl : n = n' := Option.some.inj (found.symm.trans found')
        have reached := whole (ended s made).1
        rw [(ended s made).2.1, fileBytes, if_pos regular] at reached
        simpa [TrackedTree.sizeOf, found] using reached

end Files

/-! ## How far the sum can go -/

/-- Any number of single bytes can be ticked one after the other. -/
theorem reachable_ticks {sends : List Sending} {node : List Bytes} {outcome : SendEnd} {count : ℕ}
    {left : List ℕ}
    (last : c.sends = sends ++ [⟨node, outcome, List.replicate count 1 ++ left, none⟩]) :
    ∃ c', Reachable (step tree opens) c c' ∧ c'.sumDone = c.sumDone + .ofNat count ∧
      c'.sends = sends ++ [⟨node, outcome, left, none⟩] := by
  induction count generalizing c with
  | zero => exact ⟨c, .refl c, by simp, by simpa using last⟩
  | succ count ih =>
      let rest := List.replicate count 1 ++ left
      let counted : Counters := { c with
        done := Function.update c.done node (c.done node + .ofNat 1)
        sends := sends ++ [⟨node, outcome, rest, some 1⟩] }
      let summed : Counters := { counted with
        sumDone := c.sumDone + .ofNat 1
        sends := sends ++ [⟨node, outcome, rest, none⟩] }
      have first : step tree opens c (.done sends.length) = some counted := by
        simp [step, last, counted, rest, List.replicate_succ]
      have second : step tree opens counted (.sum sends.length) = some summed := by
        simp [step, counted, summed]
      obtain ⟨c', ticked, sum, ends⟩ := ih (c := summed) rfl
      refine ⟨c', (((Reachable.refl c).tail first).tail second).trans ticked, ?_, ends⟩
      rw [sum, UInt64.add_assoc, ← UInt64.ofNat_add, Nat.add_comm 1]

/-- A file that can be mapped can be counted up to any number below its size. -/
theorem reachable_file {names : List Bytes} (file : tree.IsFile names) (mapped : opens names = true)
    (first : names ∉ c.sends.map (·.node)) {count : ℕ} (within : count ≤ tree.sizeOf names) :
    ∃ c', Reachable (step tree opens) c c' ∧ c'.sumDone = c.sumDone + .ofNat count ∧
      c'.sends.map (·.node) = c.sends.map (·.node) ++ [names] := by
  obtain ⟨n, found, regular⟩ := file
  have size : tree.sizeOf names = n.info.fsize.toNat := by simp [TrackedTree.sizeOf, found]
  obtain ⟨writes, oks, body, ran, ticks⟩ :=
    exists_writeFileContents_bytes (Enuwatch.mapped [] n.info.fsize.toNat) n.info.fsize.toNat 0
  obtain ⟨call, r, -, same, opened, -, sent, ends⟩ := exists_sendDatamsg_contents 0 n.info ran
  have unit : r.ticks = List.replicate n.info.fsize.toNat 1 := by
    split at ends
    · rw [ends.2, ticks, length_mapped, Nat.sub_zero, Nat.min_self]
    · rename_i empty
      have zero : n.info.fsize = 0 := by
        by_contra nonzero
        exact empty ⟨regular, UInt64.pos_iff_ne_zero.2 nonzero⟩
      rw [ends.2, zero]
      rfl
  have parts : r.ticks = List.replicate count 1 ++
      List.replicate (n.info.fsize.toNat - count) 1 := by
    rw [unit, List.replicate_append_replicate, Nat.add_sub_cancel' (size ▸ within)]
  let started : Counters := { c with sends := c.sends ++ [⟨names, r.outcome, r.ticks, none⟩] }
  have begins : step tree opens c (.send names call) = some started := by
    have new : c.sends.all (·.node ≠ names) = true := by simpa using first
    simp only [step, found, sent, same, opened, mapped, new, Option.isSome_some, and_self, if_true,
      started]
  have last : started.sends = c.sends ++ [⟨names, r.outcome, List.replicate count 1 ++
      List.replicate (n.info.fsize.toNat - count) 1, none⟩] := by rw [← parts]
  obtain ⟨c', ticked, sum, sends⟩ : ∃ c', Reachable (step tree opens) started c' ∧ _ :=
    reachable_ticks last
  exact ⟨c', ((Reachable.refl c).tail begins).trans ticked, sum, by simp [sends]⟩

/-- The files that can be mapped can be counted up to any number below the sum of their sizes. -/
theorem reachable_sum {files : List (List Bytes)} (nodup : files.Nodup)
    (mapped : ∀ names ∈ files, tree.IsFile names ∧ opens names = true)
    (first : ∀ names ∈ files, names ∉ c.sends.map (·.node)) {count : ℕ}
    (within : count ≤ total tree.sizeOf files) :
    ∃ c', Reachable (step tree opens) c c' ∧ c'.sumDone = c.sumDone + .ofNat count := by
  induction files generalizing c count with
  | nil =>
      obtain rfl : count = 0 := Nat.le_zero.1 within
      exact ⟨c, .refl c, by simp⟩
  | cons names files ih =>
      obtain ⟨new, nodup⟩ := List.nodup_cons.1 nodup
      obtain ⟨file, opened⟩ := mapped names List.mem_cons_self
      obtain ⟨c₁, begun, sum₁, nodes⟩ := reachable_file file opened
        (first names List.mem_cons_self) (Nat.min_le_right count (tree.sizeOf names))
      rw [total_cons] at within
      have later : ∀ other ∈ files, other ∉ c₁.sends.map (·.node) := by
        intro other among sent
        rw [nodes] at sent
        rcases List.mem_append.1 sent with old | same
        · exact first other (List.mem_cons_of_mem _ among) old
        · exact new (List.mem_singleton.1 same ▸ among)
      obtain ⟨c₂, onward, sum₂⟩ := ih nodup
        (fun other among => mapped other (List.mem_cons_of_mem _ among)) later
        (show count - min count (tree.sizeOf names) ≤ total tree.sizeOf files by omega)
      refine ⟨c₂, begun.trans onward, ?_⟩
      rw [sum₂, sum₁, UInt64.add_assoc, ← UInt64.ofNat_add]
      congr 2
      omega

/-- **The progress stays within the totals exactly when the sizes of the files that can be mapped
do not pass the sum of all sizes modulo `2 ^ 64`**, or this sum is the largest number there is. -/
theorem progress_iff (scanned : Scanned tree) {files : List (List Bytes)} (nodup : files.Nodup)
    (files_iff : ∀ names, names ∈ files ↔ tree.IsFile names) (opens : List Bytes → Bool) :
    (∀ c, Reachable (step tree opens) {} c → WithinTotals tree c) ↔
      total tree.sizeOf (files.filter opens) ≤ total tree.sizeOf files % 2 ^ 64 ∨
        total tree.sizeOf files % 2 ^ 64 = 2 ^ 64 - 1 := by
  obtain ⟨totals, sums⟩ := scanned.facts
  have sumTotal := sums files nodup files_iff
  constructor
  · intro always
    by_contra passes
    simp only [not_or, not_le] at passes
    obtain ⟨more, room⟩ := passes
    have below := Nat.mod_lt (total tree.sizeOf files) (show 0 < 2 ^ 64 by norm_num)
    obtain ⟨c, reachable, sum⟩ : ∃ c, Reachable (step tree opens) {} c ∧
        c.sumDone = 0 + .ofNat (total tree.sizeOf files % 2 ^ 64 + 1) :=
      reachable_sum (nodup.filter _) (fun names among =>
        ⟨(files_iff names).1 (List.mem_filter.1 among).1, (List.mem_filter.1 among).2⟩)
        (by simp) more
    have passed := UInt64.le_iff_toNat_le.1 (always c reachable).sum
    rw [sum, UInt64.zero_add, UInt64.toNat_ofNat', sumTotal, Nat.mod_eq_of_lt (by omega)] at passed
    omega
  · intro fits c reachable
    have accounts := reachable_accounts reachable
    have within : c.sumDone ≤ tree.sumTotal := by
      rw [UInt64.le_iff_toNat_le, accounts.sum, sumTotal]
      rcases fits with less | largest
      · exact ((Nat.mod_le _ _).trans (accounts.total_paid_le files_iff)).trans less
      · rw [largest]
        exact Nat.le_sub_one_of_lt (Nat.mod_lt _ (by norm_num))
    refine ⟨?_, within, filled_le within, ?_⟩
    · intro names n found
      rw [UInt64.le_iff_toNat_le, totals names n found]
      exact accounts.done_le found
    · intro sent
      apply UInt64.toNat_inj.1
      rw [accounts.sum, sumTotal, accounts.total_paid_eq sent nodup files_iff]

end Run

/-! ### Two trees -/

theorem plainDisk_file_iff (names : List Bytes) :
    (∃ perms size, plainDisk.items ([[114]] ++ names) = some (.file perms size)) ↔
      names ∈ [[[100], [102]], [[103]]] := by
  have entry : ∀ item, plainDisk.items ([[114]] ++ names) = some item ↔
      ([[114]] ++ names, item) ∈ plainTable := fun item => lookup_iff (by decide)
  constructor
  · rintro ⟨perms, size, found⟩
    have listed := (entry _).1 found
    simp only [plainTable, List.cons_append, List.nil_append, List.mem_cons, Prod.mk.injEq,
      List.cons.injEq, reduceCtorEq, and_false, true_and, false_or, or_false,
      List.not_mem_nil] at listed
    exact List.mem_cons.2 (listed.imp (·.1) fun other => List.mem_singleton.2 other.1)
  · intro among
    rcases List.mem_cons.1 among with rfl | last
    · exact ⟨0o644, some 3, rfl⟩
    · rw [List.mem_singleton.1 last]
      exact ⟨0o600, some 0, rfl⟩

/-- The tree of `plainDisk`, whose files have three bytes together. -/
theorem progress_iff_plainDisk :
    ∃ tree, Scanned tree ∧ (∀ names, names ∈ [[[100], [102]], [[103]]] ↔ tree.IsFile names) ∧
      ∀ c, Reachable (step tree fun _ => true) {} c → WithinTotals tree c := by
  have plain : PlainTree plainDisk [[114]] := plainTree_ofTable (by decide) (by decide)
  obtain ⟨f, explored, over_⟩ :=
    explore_terminates_iff.2 (plain.grounded 40 ⟨id, fun _ => .refl _⟩)
  have described := (plain.reproduces explored over_).nodes
  have scanned : Scanned (.replay (readM plainDisk 40 [[114]])
      (image (readEntries plainDisk 40 [[114]]) ⟨id, fun _ => .refl _⟩ [[114]] f).events) :=
    ⟨plainDisk, 40, ⟨id, fun _ => .refl _⟩, [[114]], _, by decide +kernel,
      reachable_image.2 ⟨f, explored, rfl⟩, over_, rfl⟩
  have files_iff : ∀ names : List Bytes, names ∈ [[[100], [102]], [[103]]] ↔ _ := fun names =>
    (plainDisk_file_iff names).symm.trans described.isFile_iff.symm
  refine ⟨_, scanned, files_iff, (progress_iff scanned (by decide) files_iff _).2 (.inl ?_)⟩
  have first := described.sizeOf plain ((files_iff [[100], [102]]).1 (by simp))
  have second := described.sizeOf plain ((files_iff [[103]]).1 (by simp))
  rw [List.filter_true, total_cons, total_cons, total_nil, first, second]
  decide +kernel

/-- The directory `/r` with a file `a` of two bytes and a file `b` whose size is not known. -/
def unsizedDisk : Disk :=
  .ofTable [([], .dir 0o755), ([[114]], .dir 0o755), ([[114], [97]], .file 0o644 (some 2)),
    ([[114], [98]], .file 0o644 none)] (by decide)

/-- A call that sends the file `a`. -/
def sendA : SendCall where
  seq := 0
  info := { name := [97], perms := 0o644, ftype := .regular, fsize := 2 }
  relPath := some [114, 47, 97]
  file := some [1, 2]
  pad := ⟨0, 0⟩
  writes := [.wrote 24, .wrote 3, .wrote 2]
  oks := [true]

/-- The sum of the sizes is one byte modulo `2 ^ 64`. When the two bytes of `a` are sent the bar
would be twice as long as there is room. -/
theorem bar_overflows :
    ∃ tree c, Scanned tree ∧ Reachable (step tree (· = [[97]])) {} c ∧ c.sumDone = 2 ∧
      tree.sumTotal = 1 ∧ filled c.sumDone tree.sumTotal = 80 := by
  obtain ⟨w, reaches⟩ := Option.isSome_iff_exists.1 (show (run (scanStep unsizedDisk 40
    ⟨id, fun _ => .refl _⟩ [[114]]) scanStart [()]).isSome by decide +kernel)
  have scan : ∀ w ∈ run (scanStep unsizedDisk 40 ⟨id, fun _ => .refl _⟩ [[114]]) scanStart [()],
      w.stack = [] ∧ (TrackedTree.replay (readM unsizedDisk 40 [[114]]) w.events).sumTotal = 1 ∧
        (run (step (.replay (readM unsizedDisk 40 [[114]]) w.events) (· = [[97]])) {}
          [.send [[97]] sendA, .done 0, .sum 0]).map (·.sumDone) = some 2 := by
    decide +kernel
  obtain ⟨over_, sumTotal, sends⟩ := scan w reaches
  obtain ⟨c, sent, sumDone⟩ := Option.map_eq_some_iff.1 sends
  refine ⟨_, c, ⟨unsizedDisk, 40, ⟨id, fun _ => .refl _⟩, [[114]], w, by decide +kernel,
    ⟨_, reaches⟩, over_, rfl⟩, ⟨_, sent⟩, sumDone, sumTotal, ?_⟩
  rw [sumDone, sumTotal]
  have same : ∀ n : ℕ, n < 2 ^ 53 → toDouble n = n := fun n small => toDouble_natCast small
  have twice : ratio 2 1 = (2 : ℕ) := by
    rw [ratio, if_neg (by decide), UInt64.toNat_one, same 1 (by norm_num), Nat.cast_one, div_one]
    exact (congrArg toDouble (same 2 (by norm_num))).trans (same 2 (by norm_num))
  rw [filled, twice, ← Nat.cast_mul, same _ (by norm_num [barWidth]), Nat.floor_natCast]
  rfl

end Enuwatch.Progress

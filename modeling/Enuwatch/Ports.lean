import Enuwatch.Daemon.Atomic
import Enuwatch.Sync.Client

/-!
# The ports of client and daemon

The client draws a base port with `random_port` and tells the daemon. The daemon listens on
`base_port + conn` for every `conn` below `n_conns`; the client's threads take their ports one
after the other from the atomic `cur_port`, which starts at the base. Both count in 16 bits.

The two sides always mean the same ports, and these are always different
(`start_listeningPorts`, `fetched_eq`, `nodup_ports`). They are usable exactly when the range
ends at 65535 or before (`ports_usable_iff`).
-/

set_option autoImplicit false

namespace Enuwatch

open Enuwatch.Lib

/-- `random_port`, for a return value of `rand`. -/
def randomPort (rand : ℕ) : UInt16 := .ofNat (49152 + rand % (65535 - 49152 + 1))

/-- `cur_port.fetch_add(1)`: the value it returns, and the one it leaves. -/
def fetchAdd (curPort : UInt16) : UInt16 × UInt16 := (curPort, curPort + 1)

/-- The `k`-th value that `cur_port.fetch_add(1)` returns. -/
def fetched (curPort : UInt16) : ℕ → UInt16
  | 0 => (fetchAdd curPort).1
  | k + 1 => fetched (fetchAdd curPort).2 k

/-- The port that a listening socket is bound to. -/
def Daemon.Desc.port : Daemon.Desc → Option UInt16
  | .listening port => some port
  | _ => none

/-- The ports a daemon listens on, in the order of `fds`. -/
def Daemon.Server.listeningPorts (d : Daemon.Server) : List UInt16 :=
  d.fds.filterMap fun pfd => (d.world.table.get pfd.fd).bind Daemon.Desc.port

/-- The ports for the connections from `0` on. -/
def portRange (basePort nConns : UInt16) : List UInt16 :=
  (List.range nConns.toNat).map fun conn => basePort + .ofNat conn

/-! ## The client -/

/-- A task whose thread has no socket takes its port with `fetch_add`. -/
theorem Sync.Client.prepare_sock {N : Type} [DecidableEq N] {T : Tree N} {s : Sync.Client N}
    {i : ℕ} {t : Sync.Task N} (unconnected : s.sockOf t.thread = -1) :
    s.prepare T i t .sock .go =
      some ({ s with
        tSock := s.tSock.insert t.thread (-1)
        curPort := (fetchAdd s.curPort).2 }.goto i t
          (.before (.connect (fetchAdd s.curPort).1))) := by
  simp [Sync.Client.prepare, unconnected, fetchAdd]

/-- After `k` calls the counter has gone up by `k`. -/
theorem fetched_eq (curPort : UInt16) (k : ℕ) : fetched curPort k = curPort + .ofNat k := by
  induction k generalizing curPort with
  | zero => simp [fetched, fetchAdd]
  | succ k ih =>
      rw [fetched, ih]
      simp only [fetchAdd, UInt16.ofNat_add, UInt16.add_assoc]
      rw [UInt16.add_comm (.ofNat k)]
      rfl

/-! ## The daemon -/

/-- The bind loop: one listening socket for every connection, in order. -/
theorem Daemon.bindLoop_ports (basePort : UInt16) (conns : List ℕ) (table : Slots Daemon.Desc) :
    (Daemon.bindLoop basePort conns table).1.map (Daemon.bindLoop basePort conns table).2.get =
      conns.map fun conn => some (.listening (basePort + .ofNat conn)) := by
  induction conns generalizing table with
  | nil => rfl
  | cons conn conns ih =>
      simp only [Daemon.bindLoop, List.map_cons]
      rw [ih]
      congr 1
      exact (Daemon.bindLoop_get _ _ _).2.1 _ _ (Slots.get_alloc_next _ _)

/-- The ports of a daemon that has just started. -/
theorem start_listeningPorts (inherited : List Bool) (fs : Fs) (dmsg : DaemonInitMessage) :
    (Daemon.start inherited fs dmsg).listeningPorts = portRange dmsg.basePort dmsg.nConns := by
  have bound := Daemon.bindLoop_ports dmsg.basePort (List.range dmsg.nConns.toNat)
    (Daemon.inheritedTable inherited)
  have ports := congrArg (List.filterMap (·.bind Daemon.Desc.port)) bound
  rw [List.filterMap_map, List.filterMap_map] at ports
  simp only [Daemon.Server.listeningPorts, Daemon.start, List.filterMap_map]
  refine ports.trans ?_
  rw [portRange, ← List.filterMap_eq_map]
  rfl

/-! ## The range -/

section

variable (basePort nConns : UInt16)

theorem toNat_add_ofNat (k : ℕ) :
    (basePort + .ofNat k : UInt16).toNat = (basePort.toNat + k) % 65536 := by
  simp

/-- The daemon's ports are pairwise different: there are no more of them than numbers. -/
theorem nodup_portRange : (portRange basePort nConns).Nodup := by
  refine List.Nodup.map_on ?_ List.nodup_range
  intro first below second below' same
  rw [List.mem_range] at below below'
  have bound := nConns.toNat_lt
  have values := congrArg UInt16.toNat same
  rw [toNat_add_ofNat, toNat_add_ofNat] at values
  omega

/-- The `k`-th port of the daemon is the `k`-th one a client takes. -/
theorem portRange_getElem? {k : ℕ} (below : k < nConns.toNat) :
    (portRange basePort nConns)[k]? = some (fetched basePort k) := by
  simp [portRange, below, fetched_eq]

theorem le_randomPort (rand : ℕ) : 49152 ≤ (randomPort rand).toNat := by
  simp only [randomPort, UInt16.toNat_ofNat']
  omega

/-- A range from a port above the registered ones stays there as long as it does not wrap. -/
theorem portRange_usable_iff (dynamic : 49152 ≤ basePort.toNat) :
    (∀ port ∈ portRange basePort nConns, port ≠ 0 ∧ 49152 ≤ port) ↔
      basePort.toNat + nConns.toNat ≤ 65536 := by
  simp only [portRange, List.forall_mem_map, List.mem_range]
  constructor
  · intro usable
    by_contra beyond
    have bound := basePort.toNat_lt
    -- The connection whose port would be 65536 gets the port 0.
    have zero := (usable (65536 - basePort.toNat) (by omega)).1
    apply zero
    apply UInt16.toNat_inj.1
    rw [toNat_add_ofNat, Nat.add_sub_cancel' bound.le]
    rfl
  · intro fits k below
    have value := toNat_add_ofNat basePort k
    rw [Nat.mod_eq_of_lt (by omega)] at value
    constructor
    · intro zero
      rw [zero, UInt16.toNat_zero] at value
      omega
    · rw [UInt16.le_iff_toNat_le, value]
      exact dynamic.trans (Nat.le_add_right _ _)

end

/-- What client and daemon need of their ports. -/
structure PortsUsable (basePort nConns : UInt16) (d : Daemon.Server) : Prop where
  distinct : d.listeningPorts.Nodup
  dynamic : ∀ port ∈ d.listeningPorts, port ≠ 0 ∧ 49152 ≤ port
  agree : ∀ k < nConns.toNat, d.listeningPorts[k]? = some (fetched basePort k)

/-- **The ports are usable exactly when the range ends at 65535 or before.** Whatever `rand`
returns and however many connections there are, the daemon's ports are distinct and the client
takes the same ones in the same order. None of them is 0 or below 49152 if and only if the last
one, `base_port + n_conns - 1`, is at most 65535. -/
theorem ports_usable_iff (rand : ℕ) (nConns : UInt16) (inherited : List Bool) (fs : Fs) :
    PortsUsable (randomPort rand) nConns
        (Daemon.start inherited fs ⟨randomPort rand, nConns⟩) ↔
      (randomPort rand).toNat + nConns.toNat ≤ 65536 := by
  have ports := start_listeningPorts inherited fs ⟨randomPort rand, nConns⟩
  rw [← portRange_usable_iff _ nConns (le_randomPort rand)]
  constructor
  · intro usable
    have dynamic := usable.dynamic
    rwa [ports] at dynamic
  · intro dynamic
    refine ⟨?_, ?_, ?_⟩
    · rw [ports]
      exact nodup_portRange _ _
    · rwa [ports]
    · intro k below
      rw [ports]
      exact portRange_getElem? _ _ below

/-- `rand` returns 16383 and there are two connections: the second one gets the port 0. -/
theorem ports_wrap :
    let d := Daemon.start [true, true, true] Daemon.sampleFs ⟨randomPort 16383, 2⟩
    randomPort 16383 = 65535 ∧ d.listeningPorts = [65535, 0] ∧
      ¬ PortsUsable (randomPort 16383) 2 d := by
  intro d
  have ports : d.listeningPorts = [65535, 0] := start_listeningPorts _ _ _
  refine ⟨rfl, ports, ?_⟩
  intro usable
  have zero := usable.dynamic 0 (by rw [ports]; simp)
  exact zero.1 rfl

end Enuwatch

import Enuwatch.Daemon.Atomic

/-!
# The descriptor table of the daemon

`daemon_main` keeps descriptors in three places: `fds`, `socket_fds` and the connection
states. They should agree (`DescriptorsOk`): what is in `fds` is open, what is in
`socket_fds` listens, and every other entry of `fds` is an accepted connection with a state.

They do not always agree. The destructor of a connection state closes the listening socket
that the connection came from, so a single hang-up leaves a closed number in `fds` and in
`socket_fds` (`hangUp_closes_listener`). A failed read destroys all states, and closes a
listening socket once for each connection that came from it. In runs without these two
events the descriptors agree in every state (`descriptors_ok`).
-/

set_option autoImplicit false

namespace Enuwatch.Daemon

open Enuwatch.Lib Enuwatch.Net

/-- Every `close` was of an open descriptor. -/
def ClosedOnce (w : World) : Prop := ∀ close ∈ w.closes, close.2 ≠ none

/-- The descriptors of `daemon_main` agree, for a daemon that started as `d₀`. -/
structure DescriptorsOk (d₀ d : Server) : Prop where
  opened : ∀ pfd ∈ d.fds, d.world.table.get pfd.fd ≠ none
  /-- A listening socket is the one bound at the start, and nothing else took its number. -/
  listening : ∀ s ∈ d.socketFds, d.world.table.get s = d₀.world.table.get s ∧
    ∃ port, d.world.table.get s = some (.listening port)
  accepted : ∀ pfd ∈ d.fds, pfd.fd ∉ d.socketFds →
    (∃ k, d.world.table.get pfd.fd = some (.conn k)) ∧ ∃ st, d.states.lookup pfd.fd = some st
  once : ClosedOnce d.world

/-- The connection owns its temporary descriptor. -/
def Owned (st : ConnectionState) (w : World) : Prop :=
  ∀ n : ℕ, st.anonFd = n → ∃ i, w.table.get n = some (.temp i)

theorem Owned.open {st : ConnectionState} {w : World} (owned : Owned st w) (n : ℕ)
    (own : st.anonFd = n) : w.table.get n ≠ none := by
  obtain ⟨i, temp⟩ := owned n own
  simp [temp]

section Closing

variable {w : World}

theorem ClosedOnce.close (once : ClosedOnce w) {fd : ℤ}
    (opened : ∀ n : ℕ, fd = n → w.table.get n ≠ none) : ClosedOnce (w.close fd) := by
  cases fd with
  | ofNat n =>
      intro close member
      rcases List.mem_append.1 member with old | new
      · exact once close old
      · rw [List.mem_singleton.1 new]
        exact opened n rfl
  | negSucc n => exact once

/-- Closing different open descriptors. -/
theorem ClosedOnce.closeAll (once : ClosedOnce w) {fds : List ℤ}
    (opened : ∀ n : ℕ, (n : ℤ) ∈ fds → w.table.get n ≠ none)
    (distinct : (fds.filter (0 ≤ ·)).Nodup) : ClosedOnce (fds.foldl World.close w) := by
  induction fds generalizing w with
  | nil => exact once
  | cons fd fds ih =>
      have first : ∀ n : ℕ, fd = n → w.table.get n ≠ none := by
        rintro n rfl
        exact opened n (List.mem_cons_self ..)
      refine ih (once.close first) (fun n member => ?_) ?_
      · have different : fd ≠ n := by
          rintro rfl
          rw [List.filter_cons_of_pos (by simp)] at distinct
          exact (List.nodup_cons.1 distinct).1 (List.mem_filter.2 ⟨member, by simp⟩)
        rw [get_close, if_neg different]
        exact opened n (List.mem_cons_of_mem _ member)
      · exact distinct.sublist ((List.sublist_cons_self ..).filter _)

end Closing

section Moves

variable {k : ℕ} {s s' : ConnectionState × World} {w : World}

theorem Move.owned (move : Move k s s') (owned : Owned s.1 s.2) (once : ClosedOnce s.2) :
    Owned s'.1 s'.2 ∧ ClosedOnce s'.2 := by
  cases move with
  | arm => exact ⟨owned, once⟩
  | @read st w block unused kind fits later =>
      refine ⟨fun n own => owned n ?_, once⟩
      cases target : targetOf st.kind <;>
        simpa [ConnectionState.stored, Target.storeState, target] using own
  | header => exact ⟨owned, once⟩
  | @opened st w temp kind full regular free =>
      refine ⟨fun n own => ⟨w.fs.nextIno, ?_⟩, by simpa [ClosedOnce] using once⟩
      have number : n = w.table.next := (Nat.cast_inj.1 own).symm
      simp [number]
  | @made st w kind full other free =>
      refine ⟨fun n own => absurd own (by simp [ConnectionState.idle]), ?_⟩
      apply ClosedOnce.close
      · exact once
      · exact owned.open
  | @published st w kind full can =>
      refine ⟨fun n own => absurd own (by simp [ConnectionState.idle]), ?_⟩
      apply ClosedOnce.close
      · exact once
      · exact owned.open

theorem Chain.owned (chain : Chain k s s') (owned : Owned s.1 s.2) (once : ClosedOnce s.2) :
    Owned s'.1 s'.2 ∧ ClosedOnce s'.2 := by
  induction chain with
  | refl => exact ⟨owned, once⟩
  | tail _ move ih => exact move.owned ih.1 ih.2

theorem Move.answers (move : Move k s s') : s'.2.answers <:+ s.2.answers := by
  cases move with
  | arm => exact List.suffix_rfl
  | read block unused kind fits later => exact later
  | header => exact List.suffix_rfl
  | opened =>
      simp only [World.mmap]
      split <;> exact List.suffix_rfl
  | made => simp [World.mkdir]
  | published => simp [World.rename]

/-- A wake-up reads the answers it is given. -/
theorem Chain.answers (chain : Chain k s s') : s'.2.answers <:+ s.2.answers := by
  induction chain with
  | refl => exact List.suffix_rfl
  | tail _ move ih => exact move.answers.trans ih

/-- Where a chain is cut short, nothing is closed and only free numbers change. -/
theorem Abort.descriptors {e : Exit} (abort : Abort k s e w) (answered : e ≠ .blocked) :
    w.closes = s.2.closes ∧ ∀ n v, s.2.table.get n = some v → w.table.get n = some v := by
  have kept : ∀ (table : Slots Desc) (a : Desc) n v, table.get n = some v →
      (table.alloc a).get n = some v := by
    intro table a n v here
    rw [Slots.get_alloc_of_ne_none (by simp [here]), here]
  cases abort with
  | blocked => exact absurd rfl answered
  | read => exact ⟨rfl, fun _ _ => id⟩
  | mkstemp => exact ⟨rfl, fun _ _ => id⟩
  | ftruncate => exact ⟨rfl, fun n v here => kept _ _ n v here⟩
  | mmap => exact ⟨by simp, fun n v here => by simpa using kept _ _ n v here⟩
  | mkdir => exact ⟨rfl, fun _ _ => id⟩
  | rename => exact ⟨rfl, fun _ _ => id⟩

end Moves

/-! ## Runs without hang-ups -/

/-- The step does not hang up an accepted connection, and no read fails in it while two
connections came from one listening socket. -/
def CalmStep (d : Server) : Input → Prop
  | .round ans => ∀ pfd ∈ d.fds[d.idx]?,
      ((pfd.revents.hup || pfd.revents.err) = true → pfd.fd ∈ d.socketFds) ∧
      (SysRead.error ∈ ans.reads → (d.states.entries.map (·.2.sockFd)).Nodup)
  | _ => True

instance (d : Server) (input : Input) : Decidable (CalmStep d input) :=
  match input with
  | .round _ => inferInstanceAs (Decidable (∀ pfd ∈ d.fds[d.idx]?, (_ → _) ∧ (_ → _)))
  | .poll _ => isTrue trivial
  | .interrupted => isTrue trivial
  | .pollFailed => isTrue trivial

/-- What holds of the descriptors in a calm run while the daemon is there. -/
structure Orderly (d₀ d : Server) : Prop where
  listening : ∀ s ∈ d.socketFds, d.world.table.get s = d₀.world.table.get s ∧
    ∃ port, d.world.table.get s = some (.listening port)
  keys : ∀ x st, d.states.lookup x = some st → x ∉ d.socketFds
  owned : ∀ x st, d.states.lookup x = some st → Owned st d.world

namespace Orderly

variable {d₀ d : Server}

theorem opened (orderly : Orderly d₀ d) {n : ℕ} (member : n ∈ d.socketFds) :
    d.world.table.get n ≠ none := by
  obtain ⟨-, port, here⟩ := orderly.listening n member
  simp [here]

/-- The descriptors agree. -/
theorem descriptorsOk (orderly : Orderly d₀ d)
    (coherent : Coherent d.numbers d.socketFds d.states d.world) (once : ClosedOnce d.world) :
    DescriptorsOk d₀ d := by
  have accepted : ∀ pfd ∈ d.fds, pfd.fd ∉ d.socketFds →
      (∃ k, d.world.table.get pfd.fd = some (.conn k)) ∧
        ∃ st, d.states.lookup pfd.fd = some st := by
    intro pfd member outside
    obtain ⟨st, found⟩ := coherent.listed pfd.fd (List.mem_map_of_mem member) outside
    exact ⟨coherent.conn _ st found outside, st, found⟩
  refine ⟨fun pfd member => ?_, orderly.listening, accepted, once⟩
  by_cases inside : pfd.fd ∈ d.socketFds
  · exact orderly.opened inside
  · obtain ⟨⟨k, conn⟩, -⟩ := accepted pfd member inside
    simp [conn]

/-- A temporary file does not have the number of a listening socket. -/
theorem temp_outside (orderly : Orderly d₀ d) {n i : ℕ}
    (temp : d.world.table.get n = some (.temp i)) : n ∉ d.socketFds := by
  intro member
  obtain ⟨-, port, here⟩ := orderly.listening n member
  rw [temp] at here
  cases here

/-- A new connection gets a number that nothing else has. -/
theorem welcome (orderly : Orderly d₀ d) {d' : Server} {st : ConnectionState}
    (socketFds : d'.socketFds = d.socketFds)
    (states : d'.states = d.states.insert d.world.table.next st)
    (table : d'.world.table = d.world.table.alloc (.conn d.world.accepted))
    (blank : st.anonFd = -1) : Orderly d₀ d' := by
  have kept : ∀ n v, d.world.table.get n = some v → d'.world.table.get n = some v := by
    intro n v here
    rw [table, Slots.get_alloc_of_ne_none (by simp [here]), here]
  constructor
  case listening =>
    intro s member
    rw [socketFds] at member
    obtain ⟨same, port, here⟩ := orderly.listening s member
    exact ⟨by rw [kept s _ here, ← same, here], port, kept s _ here⟩
  case keys =>
    intro x stx found
    rw [states] at found
    rw [socketFds]
    rcases lookup_insert_cases found with ⟨rfl, rfl⟩ | ⟨-, found⟩
    · exact fun member => orderly.opened member d.world.table.get_next
    · exact orderly.keys x stx found
  case owned =>
    intro x stx found n own
    rw [states] at found
    rcases lookup_insert_cases found with ⟨rfl, rfl⟩ | ⟨-, found⟩
    · rw [blank] at own
      omega
    · obtain ⟨i, temp⟩ := orderly.owned x stx found n own
      exact ⟨i, kept n _ temp⟩

section Wake

variable {x k : ℕ} {st st' : ConnectionState} {w : World} {ans : Answers}

/-- Across a chain, open descriptors other than the connection's temporary file stay. -/
theorem chain_table (orderly : Orderly d₀ d) (found : d.states.lookup x = some st)
    (chain : Chain k (st, d.answered ans) (st', w)) {n : ℕ} {v : Desc}
    (here : d.world.table.get n = some v) (other : ∀ i, v ≠ .temp i) :
    w.table.get n = some v := by
  refine (chain.frame.table n (by simp [Server.answered, here]) fun own => ?_).trans here
  obtain ⟨i, temp⟩ := orderly.owned x st found n own
  exact other i (Option.some.inj (here.symm.trans temp))

theorem wake (orderly : Orderly d₀ d)
    (coherent : Coherent d.numbers d.socketFds d.states d.world)
    (found : d.states.lookup x = some st) (chain : Chain k (st, d.answered ans) (st', w))
    (once : ClosedOnce d.world) : Orderly d₀ (d.wake x st' w) ∧ ClosedOnce w := by
  obtain ⟨owned, once⟩ := Chain.owned chain (orderly.owned x st found) once
  refine ⟨⟨?_, ?_, ?_⟩, once⟩
  · intro s member
    obtain ⟨same, port, here⟩ := orderly.listening s member
    have still := orderly.chain_table found chain here nofun
    exact ⟨still.trans (here.symm.trans same), port, still⟩
  · intro y sty this
    rcases lookup_insert_cases this with ⟨rfl, rfl⟩ | ⟨-, this⟩
    · exact orderly.keys _ st found
    · exact orderly.keys y sty this
  · intro y sty this
    rcases lookup_insert_cases this with ⟨rfl, rfl⟩ | ⟨different, this⟩
    · exact owned
    · intro n own
      obtain ⟨i, temp⟩ := orderly.owned y sty this n own
      refine ⟨i, (chain.frame.table n (by simp [Server.answered, temp]) fun ours => ?_).trans temp⟩
      exact orderly.temp_outside temp
        (coherent.anonFd_own y x sty st n different this found own ours)

end Wake

end Orderly

/-! ## Returning -/

/-- The descriptors a destructor closes. -/
def ConnectionState.descriptors (st : ConnectionState) : List ℤ :=
  [st.anonFd, st.clientFd, st.sockFd]

theorem destroyAll_eq (states : AList fun _ : ℕ => ConnectionState) (w : World) :
    destroyAll states w =
      (states.entries.flatMap fun entry => entry.2.descriptors).foldl World.close w := by
  rw [List.foldl_flatMap]
  rfl

theorem sockFd_distinct {states : AList fun _ : ℕ => ConnectionState}
    (distinct : (states.entries.map (·.2.sockFd)).Nodup) {x y : ℕ} {st st' : ConnectionState}
    (different : x ≠ y) (found : states.lookup x = some st) (found' : states.lookup y = some st') :
    st.sockFd ≠ st'.sockFd := by
  intro same
  have entries := List.inj_on_of_nodup_map distinct (AList.mem_lookup_iff.1 found)
    (AList.mem_lookup_iff.1 found') same
  cases entries
  exact different rfl

/-- What the destructors close, state by state. -/
structure Closable (states : AList fun _ : ℕ => ConnectionState) (w : World) : Prop where
  client : ∀ x st, states.lookup x = some st →
    st.clientFd = (x : ℕ) ∧ ∃ k, w.table.get x = some (.conn k)
  sock : ∀ x st, states.lookup x = some st →
    ∃ s : ℕ, st.sockFd = s ∧ ∃ port, w.table.get s = some (.listening port)
  owned : ∀ x st, states.lookup x = some st → Owned st w
  anonFd_own : ∀ x y st st' (n : ℕ), x ≠ y → states.lookup x = some st →
    states.lookup y = some st' → st.anonFd = n → st'.anonFd ≠ n
  sock_own : ∀ x y st st', x ≠ y → states.lookup x = some st → states.lookup y = some st' →
    st.sockFd ≠ st'.sockFd

namespace Closable

variable {states : AList fun _ : ℕ => ConnectionState} {w : World} {x : ℕ} {st : ConnectionState}

/-- What a state closes is open, and its kind tells which field it came from. -/
theorem cases (closable : Closable states w) (found : states.lookup x = some st) {n : ℕ}
    (member : (n : ℤ) ∈ st.descriptors) :
    (st.anonFd = n ∧ ∃ i, w.table.get n = some (.temp i)) ∨
    (n = x ∧ ∃ k, w.table.get n = some (.conn k)) ∨
    (st.sockFd = n ∧ ∃ port, w.table.get n = some (.listening port)) := by
  obtain ⟨client, k, conn⟩ := closable.client x st found
  obtain ⟨s, sock, port, listening⟩ := closable.sock x st found
  simp only [ConnectionState.descriptors, List.mem_cons, List.not_mem_nil, or_false] at member
  rcases member with own | own | own
  · exact .inl ⟨own.symm, closable.owned x st found n own.symm⟩
  · have same : n = x := by omega
    exact .inr (.inl ⟨same, k, same ▸ conn⟩)
  · have same : n = s := by omega
    exact .inr (.inr ⟨own.symm, port, same ▸ listening⟩)

/-- Two states close nothing in common. -/
theorem disjoint (closable : Closable states w) {y : ℕ} {st' : ConnectionState} (different : x ≠ y)
    (found : states.lookup x = some st) (found' : states.lookup y = some st') {n : ℕ}
    (ours : (n : ℤ) ∈ st.descriptors) (theirs : (n : ℤ) ∈ st'.descriptors) : False := by
  rcases closable.cases found ours with ⟨own, i, here⟩ | ⟨rfl, k, here⟩ | ⟨own, port, here⟩ <;>
    rcases closable.cases found' theirs with ⟨own', i', here'⟩ | ⟨rfl, k', here'⟩ |
      ⟨own', port', here'⟩
  · exact closable.anonFd_own x y st st' n different found found' own own'
  · simp [here] at here'
  · simp [here] at here'
  · simp [here] at here'
  · exact different rfl
  · simp [here] at here'
  · simp [here] at here'
  · simp [here] at here'
  · exact closable.sock_own x y st st' different found found' (own.trans own'.symm)

/-- A state closes each of its descriptors once. -/
theorem nodup (closable : Closable states w) (found : states.lookup x = some st) :
    (st.descriptors.filter (0 ≤ ·)).Nodup := by
  obtain ⟨client, k, conn⟩ := closable.client x st found
  obtain ⟨s, sock, port, listening⟩ := closable.sock x st found
  have owned : ∀ n : ℕ, (∀ i, w.table.get n ≠ some (.temp i)) → st.anonFd ≠ n := by
    intro n other own
    obtain ⟨i, temp⟩ := closable.owned x st found n own
    exact other i temp
  have first : st.anonFd ≠ x := owned x (by simp [conn])
  have second : st.anonFd ≠ s := owned s (by simp [listening])
  have third : (x : ℤ) ≠ s := by
    intro same
    rw [Nat.cast_inj.1 same, listening] at conn
    cases conn
  refine List.Nodup.filter _ ?_
  simp [ConnectionState.descriptors, client, sock, first, second, Nat.cast_inj.not.1 third]

/-- All destructors together close open descriptors only. -/
theorem closedOnce (closable : Closable states w) (once : ClosedOnce w) :
    ClosedOnce (destroyAll states w) := by
  rw [destroyAll_eq]
  refine once.closeAll (fun n member => ?_) ?_
  · obtain ⟨⟨x, st⟩, entry, member⟩ := List.mem_flatMap.1 member
    have found := AList.mem_lookup_iff.2 entry
    rcases closable.cases found member with ⟨-, i, here⟩ | ⟨-, k, here⟩ | ⟨-, port, here⟩ <;>
      simp [here]
  · rw [List.filter_flatMap, List.nodup_flatMap]
    refine ⟨fun entry member => closable.nodup (AList.mem_lookup_iff.2 member), ?_⟩
    refine (List.nodupKeys_iff_pairwise.1 states.nodupKeys).imp_of_mem ?_
    intro left right leftIn rightIn different fd ours theirs
    obtain ⟨ours, positive⟩ := List.mem_filter.1 ours
    obtain ⟨n, rfl⟩ := Int.eq_ofNat_of_zero_le (by simpa using positive)
    exact closable.disjoint different (AList.mem_lookup_iff.2 leftIn)
      (AList.mem_lookup_iff.2 rightIn) ours (List.mem_filter.1 theirs).1

end Closable

/-- In a calm run the destructors have disjoint work. -/
theorem Orderly.closable {d₀ d : Server} (orderly : Orderly d₀ d)
    (coherent : Coherent d.numbers d.socketFds d.states d.world)
    (sockets : ∀ x st, d.states.lookup x = some st → st.sockFd ≠ -1)
    (distinct : ∀ x y st st', x ≠ y → d.states.lookup x = some st →
      d.states.lookup y = some st' → st.sockFd ≠ st'.sockFd) : Closable d.states d.world where
  client x st found := ⟨coherent.client x st found, coherent.conn x st found (orderly.keys x st found)⟩
  sock x st found := by
    rcases coherent.sock x st found with none | ⟨s, member, same⟩
    · exact absurd none (sockets x st found)
    · exact ⟨s, same, (orderly.listening s member).2⟩
  owned := orderly.owned
  anonFd_own x y st st' n different found found' own own' := by
    obtain ⟨i, temp⟩ := orderly.owned x st found n own
    exact orderly.temp_outside temp
      (coherent.anonFd_own x y st st' n different found found' own own')
  sock_own := distinct

/-- A failed read leaves the descriptors of a state as they are. -/
theorem descriptors_storeState (target : Target) (block : Bytes) (st : ConnectionState) :
    (target.storeState block st).descriptors = st.descriptors := by cases target <;> rfl

theorem destroyAll_insert_congr (states : AList fun _ : ℕ => ConnectionState) (x : ℕ)
    {st st' : ConnectionState} (same : st.descriptors = st'.descriptors) (w : World) :
    destroyAll (states.insert x st) w = destroyAll (states.insert x st') w := by
  simp only [destroyAll_eq, AList.entries_insert, List.flatMap_cons, same]

section Events

variable {d₀ d d' : Server} {input : Input}

/-- A wake-up does not forget the listening socket. -/
theorem sockets_wake {x k : ℕ} {st st' : ConnectionState} {w : World} {ans : Answers}
    (sockets : ∀ x st, d.states.lookup x = some st → st.sockFd ≠ -1)
    (found : d.states.lookup x = some st) (chain : Chain k (st, d.answered ans) (st', w)) :
    ∀ y sty, (d.wake x st' w).states.lookup y = some sty → sty.sockFd ≠ -1 := by
  intro y sty this
  rcases lookup_insert_cases this with ⟨rfl, rfl⟩ | ⟨-, this⟩
  · rw [show sty.sockFd = st.sockFd from chain.frame.sock]
    exact sockets _ _ found
  · exact sockets y sty this

/-- Nor does it give two connections one listening socket. -/
theorem sockFd_wake {x k : ℕ} {st st' : ConnectionState} {w : World} {ans : Answers}
    (distinct : (d.states.entries.map (·.2.sockFd)).Nodup)
    (found : d.states.lookup x = some st) (chain : Chain k (st, d.answered ans) (st', w)) :
    ∀ y z sty stz, y ≠ z → (d.wake x st' w).states.lookup y = some sty →
      (d.wake x st' w).states.lookup z = some stz → sty.sockFd ≠ stz.sockFd := by
  have before : ∀ y sty, (d.wake x st' w).states.lookup y = some sty →
      ∃ old, d.states.lookup y = some old ∧ sty.sockFd = old.sockFd := by
    intro y sty this
    rcases lookup_insert_cases this with ⟨rfl, rfl⟩ | ⟨-, this⟩
    · exact ⟨st, found, chain.frame.sock⟩
    · exact ⟨sty, this, rfl⟩
  intro y z sty stz different this that
  obtain ⟨oldy, foundy, samey⟩ := before y sty this
  obtain ⟨oldz, foundz, samez⟩ := before z stz that
  rw [samey, samez]
  exact sockFd_distinct distinct different foundy foundz

/-- Everything a calm run maintains. -/
structure Calm (d₀ d : Server) : Prop where
  ok : DescriptorsOk d₀ d
  orderly : d.status = .running → Orderly d₀ d
  /-- Every connection knows the listening socket it came from. -/
  sockets : d.status = .running → ∀ x st, d.states.lookup x = some st → st.sockFd ≠ -1

theorem Calm.of_orderly (orderly : Orderly d₀ d)
    (coherent : Coherent d.numbers d.socketFds d.states d.world) (once : ClosedOnce d.world)
    (sockets : d.status = .running → ∀ x st, d.states.lookup x = some st → st.sockFd ≠ -1) :
    Calm d₀ d :=
  ⟨orderly.descriptorsOk coherent once, fun _ => orderly, sockets⟩

theorem Calm.of_ended (ok : DescriptorsOk d₀ d) (ended : d.status ≠ .running) : Calm d₀ d :=
  ⟨ok, fun running => absurd running ended, fun running => absurd running ended⟩

theorem Calm.event (calm : CalmStep d input) (running : d.status = .running)
    (event : Event d input d') (invariant : Invariant d) (before : Calm d₀ d) : Calm d₀ d' := by
  have unfailed := invariant.running running
  have alive : d.status ≠ .returned := by simp [running]
  have coherent := invariant.coherent alive unfailed
  have after := invariant.event running event
  have orderly := before.orderly running
  have once := before.ok.once
  have sockets := before.sockets running
  cases event with
  | polled length allowed =>
      exact .of_orderly ⟨orderly.listening, orderly.keys, orderly.owned⟩
        (after.coherent alive unfailed) once fun _ => sockets
  | interrupted => exact before
  | pollFailed => exact .of_ended ⟨before.ok.1, before.ok.2, before.ok.3, once⟩ (by simp)
  | @hungUp ans pfd here flagged =>
      -- The entry is a listening socket, and no state has its number.
      have listener := (calm pfd here).1 flagged
      have none : d.states.lookup pfd.fd = none := by
        cases found : d.states.lookup pfd.fd with
        | none => rfl
        | some st => exact absurd listener (orderly.keys _ st found)
      have world : (d.hangUp pfd.fd).world = d.world := by simp [Server.hangUp, none]
      have states : (d.hangUp pfd.fd).states = d.states :=
        AList.ext (List.kerase_of_notMem_keys (AList.lookup_eq_none.1 none))
      refine .of_orderly ⟨?_, ?_, ?_⟩ (coherent.hangUp_event here) ?_ fun _ => ?_
      · rw [world]
        exact orderly.listening
      · rw [states]
        exact orderly.keys
      · rw [states, world]
        exact orderly.owned
      · rwa [world]
      · rwa [states]
  | skipped here =>
      exact .of_orderly ⟨orderly.listening, orderly.keys, orderly.owned⟩
        (after.coherent alive unfailed) once fun _ => sockets
  | refused here listener =>
      exact .of_ended ⟨before.ok.1, before.ok.2, before.ok.3, once⟩ (by simp)
  | @admitted ans pfd port here listener listening room =>
      obtain ⟨client, sock, blank, -⟩ := coherent.blank
      refine .of_orderly (orderly.welcome rfl rfl rfl (by simp [blank]))
        (after.coherent alive unfailed) once fun _ x st found => ?_
      rcases lookup_insert_cases found with ⟨rfl, rfl⟩ | ⟨-, found⟩
      · simp
      · exact sockets x st found
  | @overflowed ans pfd port here listener listening full =>
      obtain ⟨client, sock, blank, -⟩ := coherent.blank
      have orderly' : Orderly d₀ d.overflow :=
        orderly.welcome rfl rfl rfl (by simp [blank])
      have coherent' : Coherent d.overflow.numbers d.socketFds d.overflow.states d.overflow.world :=
        after.coherent (by simp [Server.overflow]) unfailed
      exact .of_ended (orderly'.descriptorsOk coherent' once) (by simp [Server.overflow])
  | @woken ans pfd k st w here other conn chain rest =>
      have found := coherent.stateOf here other
      obtain ⟨orderly', once'⟩ := orderly.wake coherent found chain once
      refine .of_orderly orderly' (after.coherent alive (chain.unfailed unfailed)) once'
        fun _ => ?_
      exact sockets_wake sockets found chain
  | @returned ans pfd k st w here other conn cut =>
      have found := coherent.stateOf here other
      obtain ⟨⟨mid, wmid⟩, chain, abort⟩ := cut
      have coherent' := (coherent.answered ans).wake found other conn chain
      obtain ⟨orderly', once'⟩ := orderly.wake coherent found chain once
      refine .of_ended ⟨by simp [Server.returnFalse], by simp [Server.returnFalse],
        by simp [Server.returnFalse], ?_⟩ (by simp [Server.returnFalse])
      cases abort with
      | read block unused kind short later failed =>
          have distinct := (calm pfd here).2 ((Chain.answers chain).subset failed)
          have closable := orderly'.closable coherent' (sockets_wake sockets found chain)
            (sockFd_wake distinct found chain)
          have destroyed : ClosedOnce (destroyAll (d.states.insert pfd.fd mid)
              (wmid.receive k block unused ((targetOf mid.kind).storeFs block mid wmid.fs))) :=
            Closable.closedOnce ⟨closable.client, closable.sock, closable.owned,
              closable.anonFd_own, closable.sock_own⟩ once'
          rw [← destroyAll_insert_congr _ _ (descriptors_storeState _ block mid)] at destroyed
          rw [ClosedOnce, Server.returnFalse, (unlinkAnonFiles_fields _).2.2.1]
          exact destroyed
  | @failed ans pfd k w here other conn cut =>
      have found := coherent.stateOf here other
      obtain ⟨⟨mid, wmid⟩, chain, abort⟩ := cut
      obtain ⟨orderly', once'⟩ := orderly.wake coherent found chain once
      obtain ⟨closes, kept⟩ := abort.descriptors (by simp)
      have still : ∀ n v, d.world.table.get n = some v → (∀ i, v ≠ .temp i) →
          w.table.get n = some v :=
        fun n v here other => kept n v (orderly.chain_table found chain here other)
      have accepted : ∀ pfd ∈ d.fds, pfd.fd ∉ d.socketFds →
          (∃ k, w.table.get pfd.fd = some (.conn k)) ∧ ∃ st, d.states.lookup pfd.fd = some st := by
        intro pfd member outside
        obtain ⟨⟨j, conn⟩, stated⟩ := before.ok.accepted pfd member outside
        exact ⟨⟨j, still _ _ conn (by simp)⟩, stated⟩
      have listening : ∀ s ∈ d.socketFds, w.table.get s = d₀.world.table.get s ∧
          ∃ port, w.table.get s = some (.listening port) := by
        intro s member
        obtain ⟨same, port, here⟩ := orderly.listening s member
        have there := still s _ here (by simp)
        exact ⟨there.trans (here.symm.trans same), port, there⟩
      refine .of_ended ⟨fun pfd member => ?_, listening, accepted, by rwa [ClosedOnce, closes]⟩
        (by simp)
      by_cases inside : pfd.fd ∈ d.socketFds
      · obtain ⟨-, port, there⟩ := listening _ inside
        simp [there]
      · obtain ⟨⟨j, there⟩, -⟩ := accepted pfd member inside
        simp [there]
  | @dangling ans pfd here other gone =>
      have found := coherent.stateOf here other
      obtain ⟨k, conn⟩ := coherent.conn _ _ found other
      exact absurd conn (gone k)

end Events

theorem start_calm (inherited : List Bool) (fs : Fs) (dmsg : DaemonInitMessage) :
    Calm (start inherited fs dmsg) (start inherited fs dmsg) :=
  .of_orderly
    ⟨fun s member => ⟨rfl, (bindLoop_get _ _ _).2.2 s member⟩, by simp [start], by simp [start]⟩
    (start_coherent _ _ _) nofun (by simp [start])

/-- **The descriptors of the daemon agree in every state of a calm run.** -/
theorem descriptors_ok {inherited : List Bool} {fs : Fs} {dmsg : DaemonInitMessage}
    {inputs : List Input} {d : Server} (calm : Along step CalmStep (start inherited fs dmsg) inputs)
    (reaches : run step (start inherited fs dmsg) inputs = some d) :
    DescriptorsOk (start inherited fs dmsg) d := by
  have held : Settled d ∧ Invariant d ∧ Calm (start inherited fs dmsg) d := by
    refine calm.induction (I := fun d => Settled d ∧ Invariant d ∧ Calm (start inherited fs dmsg) d)
      ⟨start_settled _ _ _, reachable_invariant (.refl _), start_calm _ _ _⟩
      ?_ reaches
    rintro d input d' meets ⟨settled, invariant, before⟩ stepped
    obtain ⟨running, event, settled'⟩ := step_event settled stepped
    exact ⟨settled', invariant.event running event, before.event meets running event invariant⟩
  exact held.2.2.ok

theorem descriptors_ok_sample :
    Along step CalmStep sampleStart sampleInputs ∧
      ∃ d, run step sampleStart sampleInputs = some d ∧ d.fds.length = 2 ∧
        DescriptorsOk sampleStart d := by
  have calm : Along step CalmStep sampleStart sampleInputs := by decide +kernel
  have facts : ∀ d ∈ run step sampleStart sampleInputs, d.fds.length = 2 := by decide +kernel
  obtain ⟨d, reaches⟩ : ∃ d, run step sampleStart sampleInputs = some d :=
    Option.isSome_iff_exists.1 (by decide +kernel)
  exact ⟨calm, d, reaches, facts d reaches, descriptors_ok calm reaches⟩

/-- One connection is accepted and hangs up. The listening socket is closed with it, and its
number is still in `fds` and in `socket_fds`. -/
theorem hangUp_closes_listener :
    ∃ inputs d, run step sampleStart inputs = some d ∧ d.status = .running ∧ d.socketFds = [3] ∧
      d.fds.map (·.fd) = [3] ∧ d.world.table.get 3 = none ∧ ¬ DescriptorsOk sampleStart d := by
  have facts : ∀ d ∈ run step sampleStart
      [.poll [{ input := true }], .round {}, .round {}, .poll [{}, { hup := true }], .round {},
        .round {}], d.status = .running ∧ d.socketFds = [3] ∧ d.fds.map (·.fd) = [3] ∧
      d.world.table.get 3 = none := by decide +kernel
  obtain ⟨d, reaches⟩ : ∃ d, run step sampleStart
      [.poll [{ input := true }], .round {}, .round {}, .poll [{}, { hup := true }], .round {},
        .round {}] = some d := Option.isSome_iff_exists.1 (by decide +kernel)
  obtain ⟨status, sockets, numbers, closed⟩ := facts d reaches
  refine ⟨_, d, reaches, status, sockets, numbers, closed, fun ok => ?_⟩
  obtain ⟨-, port, listening⟩ := ok.listening 3 (by simp [sockets])
  simp [closed] at listening

end Enuwatch.Daemon

import Enuwatch.Daemon.Main
import Enuwatch.Daemon.Frame

/-!
# How connections stay apart

Connections share one descriptor table, one file system and one history. `Coherent` says how
they stay apart: every connection is on track on its own stream, no two of them share a
mapped inode or, outside the numbers of listening sockets, a temporary descriptor, and the
descriptor under which a connection is served is the connection's own.

The numbers of listening sockets are the exception everywhere: destructors close them, so
the kernel may hand them out again. What sits under such a number is never served, because
the loop takes it for a listening socket.

A wake-up (`Coherent.wake`), a hang-up (`Coherent.hangUp`) and a new connection
(`Coherent.welcome`) keep the connections apart.
-/

set_option autoImplicit false

namespace Enuwatch.Daemon

open Enuwatch.Lib Enuwatch.Net

/-- No call has failed so far. -/
def Unfailed (w : World) : Prop := ∀ call ∈ w.calls, call.ok = true

/-- Nothing was received on connection `k`, and nothing was issued for it. -/
def Untouched (w : World) (k : ℕ) : Prop := w.received k = [] ∧ issuedBy k w.calls = []

/-- The numbers in `fds`. -/
def Server.numbers (d : Server) : List ℕ := d.fds.map (·.fd)

/-- How the connections of a daemon stay apart. -/
structure Coherent (numbers socketFds : List ℕ) (states : AList fun _ : ℕ => ConnectionState)
    (w : World) : Prop where
  client : ∀ x st, states.lookup x = some st → st.clientFd = (x : ℕ)
  sock : ∀ x st, states.lookup x = some st →
    st.sockFd = -1 ∨ ∃ s ∈ socketFds, st.sockFd = (s : ℕ)
  conn : ∀ x st, states.lookup x = some st → x ∉ socketFds → ∃ k, w.table.get x = some (.conn k)
  /-- A connection under the number of a listening socket is never served. -/
  parked : ∀ x st, states.lookup x = some st → x ∈ socketFds →
    st = { clientFd := st.clientFd, sockFd := st.sockFd }
  tracks : ∀ x st k, states.lookup x = some st → w.table.get x = some (.conn k) →
    ∃ p, Tracks w k st p
  anonFd : ∀ x st (n : ℕ), states.lookup x = some st → st.anonFd = n → n ∉ socketFds →
    ∃ i, w.table.get n = some (.temp i)
  anonFd_own : ∀ x y st st' (n : ℕ), x ≠ y → states.lookup x = some st →
    states.lookup y = some st' → st.anonFd = n → st'.anonFd = n → n ∈ socketFds
  anonBuf : ∀ x st i, states.lookup x = some st → st.anonBuf = some i → i < w.fs.nextIno
  anonBuf_own : ∀ x y st st' i, x ≠ y → states.lookup x = some st →
    states.lookup y = some st' → st.anonBuf = some i → st'.anonBuf ≠ some i
  listed : ∀ x ∈ numbers, x ∉ socketFds → ∃ st, states.lookup x = some st
  nodup : (numbers.filter (· ∉ socketFds)).Nodup
  conns : ∀ x y k, w.table.get x = some (.conn k) → w.table.get y = some (.conn k) → x = y
  accepted : ∀ x k, w.table.get x = some (.conn k) → k < w.accepted
  unborn : ∀ k, w.accepted ≤ k → Untouched w k
  quiet : ∀ x k, x ∈ socketFds → w.table.get x = some (.conn k) → Untouched w k

/-- A connection whose stream, calls and mapped inode are as before is still on track. -/
theorem Tracks.congr {w w' : World} {k : ℕ} {st : ConnectionState} {p : Phase}
    (tracks : Tracks w k st p)
    (received : w'.received k = w.received k)
    (issued : issuedBy k w'.calls = issuedBy k w.calls) (nextIno : w.fs.nextIno ≤ w'.fs.nextIno)
    (data : ∀ i < w.fs.nextIno, st.anonBuf = some i → w'.fs.data i = w.fs.data i) :
    Tracks w' k st p := by
  obtain ⟨perms, state, stands⟩ := tracks
  refine ⟨perms, ?_, by rwa [received, issued]⟩
  cases state with
  | connected kind progress goal buf => exact .connected kind progress goal buf
  | header kind fits progress goal buf => exact .header kind fits progress goal buf
  | path kind whole fits progress goal buf => exact .path kind whole fits progress goal buf
  | payload kind whole named regular fits progress goal buf path seq mapped =>
      refine .payload kind whole named regular fits progress goal buf path seq fun positive => ?_
      obtain ⟨i, buffer, old, contents⟩ := mapped positive
      exact ⟨i, buffer, old.trans_le nextIno, (data i old buffer).trans contents⟩

theorem tracks_blank {w : World} {k : ℕ} {client sock : ℤ} (untouched : Untouched w k) :
    Tracks w k { clientFd := client, sockFd := sock } (.header []) := by
  refine ⟨rfl, .connected rfl rfl rfl rfl, ?_⟩
  rw [untouched.1, untouched.2]
  exact StandsAt.of_phaseAfter []

/-- Nothing but descriptors changed. -/
structure ClosesOnly (w w' : World) : Prop where
  received : w'.received = w.received
  calls : w'.calls = w.calls
  accepted : w'.accepted = w.accepted
  fs : w'.fs = w.fs
  anonFiles : w'.anonFiles = w.anonFiles
  moments : w'.moments = w.moments

theorem ClosesOnly.refl (w : World) : ClosesOnly w w := ⟨rfl, rfl, rfl, rfl, rfl, rfl⟩

theorem ClosesOnly.trans {w w' w'' : World} (first : ClosesOnly w w')
    (second : ClosesOnly w' w'') : ClosesOnly w w'' :=
  ⟨second.received.trans first.received, second.calls.trans first.calls,
    second.accepted.trans first.accepted, second.fs.trans first.fs,
    second.anonFiles.trans first.anonFiles, second.moments.trans first.moments⟩

/-- A destructor only closes descriptors. -/
theorem destroy_closes (st : ConnectionState) (w : World) : ClosesOnly w (st.destroy w) := by
  constructor <;> simp [ConnectionState.destroy]

theorem lookup_insert_cases {β : Type} {states : AList fun _ : ℕ => β} {x y : ℕ} {a b : β}
    (found : (states.insert x a).lookup y = some b) :
    (y = x ∧ b = a) ∨ (y ≠ x ∧ states.lookup y = some b) := by
  by_cases same : y = x
  · subst same
    rw [AList.lookup_insert] at found
    exact .inl ⟨rfl, (Option.some.inj found).symm⟩
  · rw [AList.lookup_insert_ne same] at found
    exact .inr ⟨same, found⟩

namespace Coherent

variable {numbers socketFds : List ℕ} {states : AList fun _ : ℕ => ConnectionState} {w w' : World}
  {x k : ℕ} {st st' : ConnectionState}

/-- An open descriptor of a served connection is nobody's temporary file. -/
theorem anonFd_ne (coherent : Coherent numbers socketFds states w) {y : ℕ}
    (found : states.lookup x = some st) (other : y ∉ socketFds)
    (conn : w.table.get y = some (.conn k)) : st.anonFd ≠ y := by
  intro own
  obtain ⟨i, temp⟩ := coherent.anonFd x st y found own other
  rw [conn] at temp
  cases temp

/-- A wake-up keeps the connections apart. -/
theorem wake (coherent : Coherent numbers socketFds states w) (found : states.lookup x = some st)
    (other : x ∉ socketFds) (conn : w.table.get x = some (.conn k))
    (chain : Chain k (st, w) (st', w')) :
    Coherent numbers socketFds (states.insert x st') w' := by
  have frame := chain.frame
  have kept : ∀ y j, y ∉ socketFds → w.table.get y = some (.conn j) →
      w'.table.get y = some (.conn j) := by
    intro y j outside here
    rw [frame.table y (by simp [here]) (coherent.anonFd_ne found outside here), here]
  have distinct : ∀ y j, y ≠ x → w.table.get y = some (.conn j) → j ≠ k := by
    rintro y j different here rfl
    exact different (coherent.conns y x j here conn)
  constructor
  case client =>
    intro y sty this
    rcases lookup_insert_cases this with ⟨rfl, rfl⟩ | ⟨-, this⟩
    · exact frame.client.trans (coherent.client _ st found)
    · exact coherent.client y sty this
  case sock =>
    intro y sty this
    rcases lookup_insert_cases this with ⟨rfl, rfl⟩ | ⟨-, this⟩
    · rw [show sty.sockFd = st.sockFd from frame.sock]
      exact coherent.sock _ st found
    · exact coherent.sock y sty this
  case conn =>
    intro y sty this outside
    rcases lookup_insert_cases this with ⟨rfl, rfl⟩ | ⟨-, this⟩
    · exact ⟨k, kept _ k outside conn⟩
    · obtain ⟨j, here⟩ := coherent.conn y sty this outside
      exact ⟨j, kept y j outside here⟩
  case parked =>
    intro y sty this inside
    rcases lookup_insert_cases this with ⟨rfl, rfl⟩ | ⟨-, this⟩
    · exact absurd inside other
    · exact coherent.parked y sty this inside
  case tracks =>
    intro y sty j this here
    have before := frame.conns y j here
    rcases lookup_insert_cases this with ⟨rfl, rfl⟩ | ⟨different, this⟩
    · have same : j = k := by
        rw [conn] at before
        cases before
        rfl
      subst same
      exact Tracks.chain chain (coherent.tracks _ st j found conn)
    · obtain ⟨p, tracks⟩ := coherent.tracks y sty j this before
      have away := distinct y j different before
      refine ⟨p, tracks.congr (frame.received j away) (frame.issued j away) frame.nextIno ?_⟩
      intro i old mapped
      exact frame.data i old (coherent.anonBuf_own y x sty st i different this found mapped)
  case anonFd =>
    intro y sty n this own outside
    rcases lookup_insert_cases this with ⟨rfl, rfl⟩ | ⟨different, this⟩
    · rcases frame.anonFd n own with ⟨before, same⟩ | ⟨temp, -⟩
      · obtain ⟨i, temp⟩ := coherent.anonFd _ st n found before outside
        exact ⟨i, same.trans temp⟩
      · exact temp
    · obtain ⟨i, temp⟩ := coherent.anonFd y sty n this own outside
      refine ⟨i, (frame.table n (by simp [temp]) fun shared => outside ?_).trans temp⟩
      exact coherent.anonFd_own y x sty st n different this found own shared
  case anonFd_own =>
    -- A number of another connection is in use, so it is not the one just handed out.
    have foreign : ∀ y sty (n : ℕ), y ≠ x → states.lookup y = some sty → sty.anonFd = n →
        st'.anonFd = n → n ∈ socketFds := by
      intro y sty n different this theirs ours
      by_contra outside
      obtain ⟨i, temp⟩ := coherent.anonFd y sty n this theirs outside
      rcases frame.anonFd n ours with ⟨before, -⟩ | ⟨-, free | before⟩
      · exact outside (coherent.anonFd_own y x sty st n different this found theirs before)
      · simp [temp] at free
      · exact outside (coherent.anonFd_own y x sty st n different this found theirs before)
    intro y z sty stz n different this that left right
    rcases lookup_insert_cases this with ⟨rfl, rfl⟩ | ⟨notx, found₁⟩ <;>
      rcases lookup_insert_cases that with ⟨rfl, rfl⟩ | ⟨notx', found₂⟩
    · exact absurd rfl different
    · exact foreign z stz n notx' found₂ right left
    · exact foreign y sty n notx found₁ left right
    · exact coherent.anonFd_own y z sty stz n different found₁ found₂ left right
  case anonBuf =>
    have bound := frame.nextIno
    intro y sty i this mapped
    rcases lookup_insert_cases this with ⟨rfl, rfl⟩ | ⟨-, this⟩
    · rcases frame.buffer with same | ⟨new, here, -, used⟩
      · exact (coherent.anonBuf _ st i found (same.symm.trans mapped)).trans_le bound
      · rw [mapped] at here
        cases here
        exact used
    · exact (coherent.anonBuf y sty i this mapped).trans_le bound
  case anonBuf_own =>
    have foreign : ∀ y sty i, y ≠ x → states.lookup y = some sty → sty.anonBuf = some i →
        st'.anonBuf ≠ some i := by
      intro y sty i different this theirs
      rcases frame.buffer with same | ⟨new, here, fresh, -⟩
      · rw [show st'.anonBuf = st.anonBuf from same]
        exact coherent.anonBuf_own y x sty st i different this found theirs
      · have old := coherent.anonBuf y sty i this theirs
        rw [show st'.anonBuf = some new from here]
        rintro ⟨⟩
        exact absurd old (not_lt.2 fresh)
    intro y z sty stz i different this that mapped
    rcases lookup_insert_cases this with ⟨rfl, rfl⟩ | ⟨notx, found₁⟩ <;>
      rcases lookup_insert_cases that with ⟨rfl, rfl⟩ | ⟨notx', found₂⟩
    · exact absurd rfl different
    · exact fun theirs => foreign z stz i notx' found₂ theirs mapped
    · exact foreign y sty i notx found₁ mapped
    · exact coherent.anonBuf_own y z sty stz i different found₁ found₂ mapped
  case listed =>
    intro y member outside
    by_cases same : y = x
    · subst same
      exact ⟨st', AList.lookup_insert _⟩
    · rw [AList.lookup_insert_ne same]
      exact coherent.listed y member outside
  case nodup => exact coherent.nodup
  case conns =>
    intro y z j left right
    exact coherent.conns y z j (frame.conns y j left) (frame.conns z j right)
  case accepted =>
    intro y j here
    rw [frame.accepted]
    exact coherent.accepted y j (frame.conns y j here)
  case unborn =>
    intro j late
    rw [frame.accepted] at late
    have away : j ≠ k := by
      rintro rfl
      exact absurd (coherent.accepted x j conn) (not_lt.2 late)
    obtain ⟨received, issued⟩ := coherent.unborn j late
    exact ⟨(frame.received j away).trans received, (frame.issued j away).trans issued⟩
  case quiet =>
    intro y j inside here
    have before := frame.conns y j here
    have away : j ≠ k := distinct y j (fun same => other (same ▸ inside)) before
    obtain ⟨received, issued⟩ := coherent.quiet y j inside before
    exact ⟨(frame.received j away).trans received, (frame.issued j away).trans issued⟩

/-- The destructor of a state closes numbers that belong to nobody else. -/
theorem hangUp (coherent : Coherent numbers socketFds states w)
    {rest : List ℕ} (sub : rest.Sublist numbers)
    (gone : x ∉ socketFds → x ∉ rest) (found : states.lookup x = some st) :
    Coherent rest socketFds (states.erase x) (st.destroy w) := by
  have client := coherent.client x st found
  obtain ⟨received, calls, accepted, fs, -, -⟩ := destroy_closes st w
  have untouched : ∀ j, Untouched w j → Untouched (st.destroy w) j := by
    intro j
    simp only [Untouched, received, calls, imp_self]
  have get : ∀ n : ℕ, (st.destroy w).table.get n =
      if st.sockFd = n ∨ x = n ∨ st.anonFd = n then none else w.table.get n := by
    intro n
    simp only [ConnectionState.destroy, get_close, client, Nat.cast_inj]
    split_ifs <;> simp_all
  have before : ∀ n v, (st.destroy w).table.get n = some v → w.table.get n = some v := by
    intro n v here
    rw [get] at here
    split at here
    · cases here
    · exact here
  have kept : ∀ n : ℕ, n ∉ socketFds → n ≠ x → st.anonFd ≠ n →
      (st.destroy w).table.get n = w.table.get n := by
    intro n outside different foreign
    rw [get, if_neg]
    rintro (closed | closed | closed)
    · rcases coherent.sock x st found with none | ⟨s, member, same⟩
      · omega
      · exact outside (by rwa [Nat.cast_inj.1 (same.symm.trans closed)] at member)
    · exact different closed.symm
    · exact foreign closed
  have remains : ∀ y sty, (states.erase x).lookup y = some sty →
      y ≠ x ∧ states.lookup y = some sty := by
    intro y sty this
    by_cases same : y = x
    · subst same
      simp at this
    · exact ⟨same, by simpa [same] using this⟩
  constructor
  case client => exact fun y sty this => coherent.client y sty (remains y sty this).2
  case sock => exact fun y sty this => coherent.sock y sty (remains y sty this).2
  case conn =>
    intro y sty this outside
    obtain ⟨different, this⟩ := remains y sty this
    obtain ⟨j, here⟩ := coherent.conn y sty this outside
    exact ⟨j, (kept y outside different (coherent.anonFd_ne found outside here)).trans here⟩
  case parked => exact fun y sty this => coherent.parked y sty (remains y sty this).2
  case tracks =>
    intro y sty j this here
    obtain ⟨p, tracks⟩ := coherent.tracks y sty j (remains y sty this).2 (before y _ here)
    exact ⟨p, tracks.congr (by rw [received]) (by rw [calls]) (by rw [fs]) (by simp [fs])⟩
  case anonFd =>
    intro y sty n this own outside
    obtain ⟨different, this⟩ := remains y sty this
    obtain ⟨i, temp⟩ := coherent.anonFd y sty n this own outside
    refine ⟨i, (kept n outside ?_ ?_).trans temp⟩
    · rintro rfl
      obtain ⟨j, here⟩ := coherent.conn n st found outside
      simp [temp] at here
    · exact fun shared =>
        outside (coherent.anonFd_own y x sty st n different this found own shared)
  case anonFd_own =>
    intro y z sty stz n different this that
    exact coherent.anonFd_own y z sty stz n different (remains y sty this).2 (remains z stz that).2
  case anonBuf =>
    intro y sty i this
    rw [fs]
    exact coherent.anonBuf y sty i (remains y sty this).2
  case anonBuf_own =>
    intro y z sty stz i different this that
    exact coherent.anonBuf_own y z sty stz i different (remains y sty this).2 (remains z stz that).2
  case listed =>
    intro y member outside
    have different : y ≠ x := by
      rintro rfl
      exact gone outside member
    obtain ⟨sty, this⟩ := coherent.listed y (sub.subset member) outside
    exact ⟨sty, by simpa [different] using this⟩
  case nodup => exact coherent.nodup.sublist (sub.filter _)
  case conns => exact fun y z j left right => coherent.conns y z j (before y _ left) (before z _ right)
  case accepted =>
    intro y j here
    rw [accepted]
    exact coherent.accepted y j (before y _ here)
  case unborn =>
    intro j late
    rw [accepted] at late
    exact untouched j (coherent.unborn j late)
  case quiet => exact fun y j inside here => untouched j (coherent.quiet y j inside (before y _ here))

/-- No served connection has a free number. -/
theorem next_inside (coherent : Coherent numbers socketFds states w)
    (found : states.lookup w.table.next = some st) : w.table.next ∈ socketFds := by
  by_contra outside
  obtain ⟨j, here⟩ := coherent.conn _ st found outside
  rw [w.table.get_next] at here
  cases here

/-- The state that `states[client_fd]` finds or makes for a new connection is a blank one. -/
theorem blank (coherent : Coherent numbers socketFds states w) :
    ∃ client sock, (states.lookup w.table.next).getD {} = { clientFd := client, sockFd := sock } ∧
      (sock = -1 ∨ ∃ s ∈ socketFds, sock = ((s : ℕ) : ℤ)) := by
  cases found : states.lookup w.table.next with
  | none => exact ⟨-1, -1, rfl, .inl rfl⟩
  | some st =>
      exact ⟨st.clientFd, st.sockFd,
        coherent.parked _ st found (coherent.next_inside found), coherent.sock _ st found⟩

/-- A new connection keeps the others apart. -/
theorem welcome (coherent : Coherent numbers socketFds states w) {sock : ℤ}
    (legal : sock = -1 ∨ ∃ s ∈ socketFds, sock = ((s : ℕ) : ℤ)) :
    Coherent (numbers ++ [w.table.next]) socketFds
      (states.insert w.table.next { clientFd := (w.table.next : ℕ), sockFd := sock })
      { w with table := w.table.alloc (.conn w.accepted), accepted := w.accepted + 1 } := by
  have kept : ∀ n v, w.table.get n = some v → (w.table.alloc (.conn w.accepted)).get n = some v := by
    intro n v here
    rw [Slots.get_alloc_of_ne_none (by simp [here]), here]
  have before : ∀ n j, (w.table.alloc (.conn w.accepted)).get n = some (.conn j) →
      (n = w.table.next ∧ j = w.accepted) ∨ (n ≠ w.table.next ∧ w.table.get n = some (.conn j)) := by
    intro n j here
    rw [Slots.get_alloc] at here
    split at here
    · rename_i same
      cases here
      exact .inl ⟨same, rfl⟩
    · rename_i different
      exact .inr ⟨different, here⟩
  have unborn := coherent.unborn w.accepted le_rfl
  constructor
  case client =>
    intro y sty this
    rcases lookup_insert_cases this with ⟨rfl, rfl⟩ | ⟨-, this⟩
    · rfl
    · exact coherent.client y sty this
  case sock =>
    intro y sty this
    rcases lookup_insert_cases this with ⟨rfl, rfl⟩ | ⟨-, this⟩
    · exact legal
    · exact coherent.sock y sty this
  case conn =>
    intro y sty this outside
    rcases lookup_insert_cases this with ⟨rfl, rfl⟩ | ⟨-, this⟩
    · exact ⟨w.accepted, Slots.get_alloc_next _ _⟩
    · obtain ⟨j, here⟩ := coherent.conn y sty this outside
      exact ⟨j, kept y _ here⟩
  case parked =>
    intro y sty this inside
    rcases lookup_insert_cases this with ⟨rfl, rfl⟩ | ⟨-, this⟩
    · rfl
    · exact coherent.parked y sty this inside
  case tracks =>
    intro y sty j this here
    rcases before y j here with ⟨same, rfl⟩ | ⟨other, here⟩ <;>
      rcases lookup_insert_cases this with ⟨rfl, rfl⟩ | ⟨different, this⟩
    · exact ⟨_, tracks_blank unborn⟩
    · exact absurd same different
    · exact absurd rfl other
    · obtain ⟨p, tracks⟩ := coherent.tracks y sty j this here
      exact ⟨p, tracks.congr rfl rfl le_rfl fun _ _ _ => rfl⟩
  case anonFd =>
    intro y sty n this own outside
    rcases lookup_insert_cases this with ⟨rfl, rfl⟩ | ⟨-, this⟩
    · simp at own
    · obtain ⟨i, temp⟩ := coherent.anonFd y sty n this own outside
      exact ⟨i, kept n _ temp⟩
  case anonFd_own =>
    intro y z sty stz n different this that left right
    rcases lookup_insert_cases this with ⟨rfl, rfl⟩ | ⟨notx, found₁⟩ <;>
      rcases lookup_insert_cases that with ⟨rfl, rfl⟩ | ⟨notx', found₂⟩
    · exact absurd rfl different
    · simp at left
    · simp at right
    · exact coherent.anonFd_own y z sty stz n different found₁ found₂ left right
  case anonBuf =>
    intro y sty i this mapped
    rcases lookup_insert_cases this with ⟨rfl, rfl⟩ | ⟨-, this⟩
    · simp at mapped
    · exact coherent.anonBuf y sty i this mapped
  case anonBuf_own =>
    intro y z sty stz i different this that mapped
    rcases lookup_insert_cases this with ⟨rfl, rfl⟩ | ⟨notx, found₁⟩ <;>
      rcases lookup_insert_cases that with ⟨rfl, rfl⟩ | ⟨notx', found₂⟩
    · exact absurd rfl different
    · simp at mapped
    · simp
    · exact coherent.anonBuf_own y z sty stz i different found₁ found₂ mapped
  case listed =>
    intro y member outside
    by_cases same : y = w.table.next
    · subst same
      exact ⟨_, AList.lookup_insert _⟩
    · rw [AList.lookup_insert_ne same]
      exact coherent.listed y (by simpa [same] using member) outside
  case nodup =>
    rw [List.filter_append]
    by_cases inside : w.table.next ∈ socketFds
    · simpa [inside] using coherent.nodup
    · have new : w.table.next ∉ numbers := by
        intro member
        obtain ⟨sty, this⟩ := coherent.listed _ member inside
        exact inside (coherent.next_inside this)
      have single : [w.table.next].filter (· ∉ socketFds) = [w.table.next] := by simp [inside]
      rw [single, List.nodup_append]
      refine ⟨coherent.nodup, by simp, ?_⟩
      intro a left b right
      rw [List.mem_singleton.1 right]
      rintro rfl
      exact new (List.mem_of_mem_filter left)
  case conns =>
    intro y z j left right
    rcases before y j left with ⟨rfl, rfl⟩ | ⟨-, left⟩ <;>
      rcases before z _ right with ⟨rfl, same⟩ | ⟨-, right⟩
    · rfl
    · exact absurd (coherent.accepted z _ right) (lt_irrefl _)
    · rw [same] at left
      exact absurd (coherent.accepted y _ left) (lt_irrefl _)
    · exact coherent.conns y z j left right
  case accepted =>
    intro y j here
    rcases before y j here with ⟨-, rfl⟩ | ⟨-, here⟩
    · exact Nat.lt_succ_self _
    · exact (coherent.accepted y j here).trans (Nat.lt_succ_self _)
  case unborn => exact fun j late => coherent.unborn j (Nat.le_of_succ_le late)
  case quiet =>
    intro y j inside here
    rcases before y j here with ⟨-, rfl⟩ | ⟨-, here⟩
    · exact unborn
    · exact coherent.quiet y j inside here

end Coherent

end Enuwatch.Daemon

import Enuwatch.Daemon.Refinement

/-!
# What a wake-up leaves alone

A wake-up of connection `k` touches the stream and the calls of `k`, the inode that `k` has
mapped, the descriptor of the temporary file of `k` and numbers that were free. Everything
else is as before (`Frame`). The frame of a chain follows from the frame of a move
(`Chain.frame`).
-/

set_option autoImplicit false

namespace Enuwatch.Daemon

open Enuwatch.Lib Enuwatch.Net

/-- What a chain of moves of connection `k` leaves alone. -/
structure Frame (k : ℕ) (s s' : ConnectionState × World) : Prop where
  client : s'.1.clientFd = s.1.clientFd
  sock : s'.1.sockFd = s.1.sockFd
  received : ∀ j, j ≠ k → s'.2.received j = s.2.received j
  issued : ∀ j, j ≠ k → issuedBy j s'.2.calls = issuedBy j s.2.calls
  accepted : s'.2.accepted = s.2.accepted
  cwd : s'.2.fs.cwd = s.2.fs.cwd
  nextIno : s.2.fs.nextIno ≤ s'.2.fs.nextIno
  data : ∀ i < s.2.fs.nextIno, s.1.anonBuf ≠ some i → s'.2.fs.data i = s.2.fs.data i
  /-- The mapping is the old one or that of a new inode. -/
  buffer : s'.1.anonBuf = s.1.anonBuf ∨
    ∃ i, s'.1.anonBuf = some i ∧ s.2.fs.nextIno ≤ i ∧ i < s'.2.fs.nextIno
  /-- An open descriptor stays, unless it is the connection's own temporary file. -/
  table : ∀ n : ℕ, s.2.table.get n ≠ none → s.1.anonFd ≠ n → s'.2.table.get n = s.2.table.get n
  /-- The temporary file has the descriptor it had, or one that was free. -/
  anonFd : ∀ n : ℕ, s'.1.anonFd = n →
    (s.1.anonFd = n ∧ s'.2.table.get n = s.2.table.get n) ∨
    ((∃ i, s'.2.table.get n = some (.temp i)) ∧ (s.2.table.get n = none ∨ s.1.anonFd = n))
  conns : ∀ n j, s'.2.table.get n = some (.conn j) → s.2.table.get n = some (.conn j)

namespace Frame

variable {k : ℕ} {s s' s'' : ConnectionState × World}

theorem refl (k : ℕ) (s : ConnectionState × World) : Frame k s s where
  client := rfl
  sock := rfl
  received _ _ := rfl
  issued _ _ := rfl
  accepted := rfl
  cwd := rfl
  nextIno := le_rfl
  data _ _ _ := rfl
  buffer := .inl rfl
  table _ _ _ := rfl
  anonFd _ same := .inl ⟨same, rfl⟩
  conns _ _ := id

theorem trans (first : Frame k s s') (second : Frame k s' s'') : Frame k s s'' where
  client := second.client.trans first.client
  sock := second.sock.trans first.sock
  received j other := (second.received j other).trans (first.received j other)
  issued j other := (second.issued j other).trans (first.issued j other)
  accepted := second.accepted.trans first.accepted
  cwd := second.cwd.trans first.cwd
  nextIno := first.nextIno.trans second.nextIno
  data i old foreign := by
    have still : s'.1.anonBuf ≠ some i := by
      rcases first.buffer with same | ⟨new, mapped, fresh, -⟩
      · rwa [same]
      · rw [mapped]
        simp only [ne_eq, Option.some.injEq]
        omega
    rw [second.data i (old.trans_le first.nextIno) still, first.data i old foreign]
  buffer := by
    have bound := first.nextIno
    have bound' := second.nextIno
    rcases second.buffer with same | ⟨new, mapped, fresh, used⟩
    · rw [same]
      rcases first.buffer with same | ⟨new, mapped, fresh, used⟩
      · exact .inl same
      · exact .inr ⟨new, mapped, fresh, by omega⟩
    · exact .inr ⟨new, mapped, by omega, used⟩
  table n opened foreign := by
    have kept := first.table n opened foreign
    have still : s'.1.anonFd ≠ n := by
      intro own
      rcases first.anonFd n own with ⟨before, -⟩ | ⟨-, free | before⟩
      · exact foreign before
      · exact opened free
      · exact foreign before
    rw [second.table n (kept ▸ opened) still, kept]
  anonFd n own := by
    rcases second.anonFd n own with ⟨before, same⟩ | ⟨temp, free | before⟩
    · rw [same]
      rcases first.anonFd n before with ⟨before, same⟩ | rest
      · exact .inl ⟨before, same⟩
      · exact .inr rest
    · refine .inr ⟨temp, ?_⟩
      by_contra neither
      rw [not_or] at neither
      exact neither.1 ((first.table n neither.1 neither.2).symm.trans free)
    · refine .inr ⟨temp, ?_⟩
      rcases first.anonFd n before with ⟨before, -⟩ | ⟨-, rest⟩
      · exact .inr before
      · exact rest
  conns n j conn := first.conns n j (second.conns n j conn)

end Frame

theorem get_close (w : World) (fd : ℤ) (n : ℕ) :
    (w.close fd).table.get n = if fd = n then none else w.table.get n := by
  cases fd with
  | ofNat m =>
      simp only [World.close, Slots.get_free, Int.ofNat_eq_natCast, Nat.cast_inj, eq_comm]
  | negSucc m =>
      rw [if_neg (by simp)]
      rfl

section Moves

variable {k : ℕ} {st : ConnectionState} {w : World}

/-- A change of the connection's own counters and buffers. -/
theorem Frame.own {st' : ConnectionState} (client : st'.clientFd = st.clientFd)
    (sock : st'.sockFd = st.sockFd) (anonBuf : st'.anonBuf = st.anonBuf)
    (anonFd : st'.anonFd = st.anonFd) : Frame k (st, w) (st', w) where
  client := client
  sock := sock
  received _ _ := rfl
  issued _ _ := rfl
  accepted := rfl
  cwd := rfl
  nextIno := le_rfl
  data _ _ _ := rfl
  buffer := .inl anonBuf
  table _ _ _ := rfl
  anonFd _ same := .inl ⟨anonFd.symm.trans same, rfl⟩
  conns _ _ := id

theorem Frame.read (block : Bytes) (unused : List SysRead) (target : Target) :
    Frame k (st, w)
      (st.stored target block, w.receive k block unused (target.storeFs block st w.fs)) where
  client := by cases target <;> rfl
  sock := by cases target <;> rfl
  received j other := by simp [other]
  issued _ _ := rfl
  accepted := rfl
  cwd := by cases target <;> simp [Target.storeFs]
  nextIno := by cases target <;> simp [Target.storeFs]
  data i _ foreign := by
    cases target with
    | buf => rfl
    | map =>
        cases mapped : st.anonBuf with
        | none => simp [Target.storeFs, Fs.store, mapped]
        | some own =>
            have different : i ≠ own := by
              rintro rfl
              exact foreign mapped
            simp [Target.storeFs, Fs.store, mapped, different]
  buffer := by cases target <;> exact .inl rfl
  table _ _ _ := rfl
  anonFd _ same := .inl ⟨by cases target <;> exact same, rfl⟩
  conns _ _ := id

theorem Frame.opened (temp : Bytes) :
    Frame k (st, w) (st.opened w.table.next w.fs.nextIno temp,
      w.mmap k st.msg.seq temp st.msg.fsize.toNat true) where
  client := rfl
  sock := rfl
  received _ _ := by simp
  issued j other := by
    simp [issuedBy_append, Ne.symm other, apply_ite (issuedBy j)]
  accepted := by simp
  cwd := by simp
  nextIno := by simp
  data i old _ := by simp [Fs.truncate, Fs.create, old.ne]
  buffer := by
    by_cases positive : st.msg.fsize > 0
    · exact .inr ⟨w.fs.nextIno, by simp [ConnectionState.opened, positive], le_rfl, by simp⟩
    · exact .inl (by simp only [ConnectionState.opened, if_neg positive])
  table n opened _ := by
    rw [World.mmap_table]
    exact Slots.get_alloc_of_ne_none opened
  anonFd n own := by
    have number : n = w.table.next := (Nat.cast_inj.1 own).symm
    subst number
    exact .inr ⟨⟨w.fs.nextIno, by simp⟩, .inl w.table.get_next⟩
  conns n j conn := by
    rw [World.mmap_table, Slots.get_alloc] at conn
    split at conn
    · simp at conn
    · exact conn

/-- A call on names only, after which the connection's own temporary file is closed. -/
theorem Frame.closed {w' : World} {st' : ConnectionState} (client : st'.clientFd = st.clientFd)
    (sock : st'.sockFd = st.sockFd) (anonBuf : st'.anonBuf = st.anonBuf) (anonFd : st'.anonFd = -1)
    (received : w'.received = w.received) (accepted : w'.accepted = w.accepted)
    (issued : ∀ j, j ≠ k → issuedBy j w'.calls = issuedBy j w.calls)
    (cwd : w'.fs.cwd = w.fs.cwd) (nextIno : w'.fs.nextIno = w.fs.nextIno)
    (data : w'.fs.data = w.fs.data) (table : w'.table = w.table) :
    Frame k (st, w) (st', w'.close st.anonFd) where
  client := client
  sock := sock
  received _ _ := by simp [received]
  issued j other := by simpa using issued j other
  accepted := by simp [accepted]
  cwd := by simp [cwd]
  nextIno := by simp [nextIno]
  data _ _ _ := by simp [data]
  buffer := .inl anonBuf
  table n _ foreign := by rw [get_close, if_neg foreign, table]
  anonFd n own := by
    rw [anonFd] at own
    omega
  conns n j conn := by
    rw [get_close] at conn
    split at conn
    · cases conn
    · rwa [table] at conn

theorem Move.frame {s s' : ConnectionState × World} (move : Move k s s') : Frame k s s' := by
  cases move with
  | arm kind => exact .own rfl rfl rfl rfl
  | read block unused kind fits later => exact .read block unused _
  | header kind full => exact .own rfl rfl rfl rfl
  | opened temp kind full regular free => exact .opened temp
  | made kind full other free =>
      exact .closed rfl rfl rfl rfl (by simp) (by simp)
        (fun j other => by simp [issuedBy_append, Ne.symm other]) (by simp) (by simp) (by simp) rfl
  | published kind full can =>
      exact .closed rfl rfl rfl rfl (by simp) (by simp)
        (fun j other => by simp [issuedBy_append, Ne.symm other]) (by simp) (by simp) (by simp) rfl

theorem Chain.frame {s s' : ConnectionState × World} (chain : Chain k s s') : Frame k s s' := by
  induction chain with
  | refl => exact .refl k s
  | tail _ move ih => exact ih.trans move.frame

/-- When a chain is cut short, the other connections have received and issued what they had. -/
theorem Abort.others {e : Exit} {w' : World} (abort : Abort k (st, w) e w')
    (answered : e ≠ .blocked) {j : ℕ} (other : j ≠ k) :
    w'.received j = w.received j ∧ issuedBy j w'.calls = issuedBy j w.calls := by
  cases abort with
  | blocked => exact absurd rfl answered
  | read => simp [other]
  | mkstemp => simp [issuedBy_append, Ne.symm other]
  | ftruncate => simp [issuedBy_append, Ne.symm other]
  | mmap => simp [issuedBy_append, Ne.symm other, apply_ite (issuedBy j)]
  | mkdir => simp [issuedBy_append, Ne.symm other]
  | rename => simp [issuedBy_append, Ne.symm other]

theorem Abort.accepted {e : Exit} {w' : World} (abort : Abort k (st, w) e w')
    (answered : e ≠ .blocked) : w'.accepted = w.accepted := by
  cases abort with
  | blocked => exact absurd rfl answered
  | mkstemp => exact World.mkstemp_accepted ..
  | ftruncate => exact World.ftruncate_accepted ..
  | mmap => exact World.mmap_accepted ..
  | _ => rfl

/-- Calls are never taken back. -/
theorem Move.calls_isPrefix {s s' : ConnectionState × World} (move : Move k s s') :
    s.2.calls <+: s'.2.calls := by
  cases move with
  | arm => exact List.prefix_rfl
  | read => exact List.prefix_rfl
  | header => exact List.prefix_rfl
  | opened =>
      simp only [World.mmap_calls, World.ftruncate_calls, List.append_assoc]
      exact List.prefix_append _ _
  | made =>
      simp only [World.close_calls, World.mkdir_calls]
      exact List.prefix_append _ _
  | published =>
      simp only [World.close_calls, World.rename_calls]
      exact List.prefix_append _ _

theorem Chain.calls_isPrefix {s s' : ConnectionState × World} (chain : Chain k s s') :
    s.2.calls <+: s'.2.calls := by
  induction chain with
  | refl => exact List.prefix_rfl
  | tail _ move ih => exact ih.trans move.calls_isPrefix

theorem Abort.calls_isPrefix {e : Exit} {s : ConnectionState × World} (abort : Abort k s e w)
    (answered : e ≠ .blocked) : s.2.calls <+: w.calls := by
  cases abort with
  | blocked => exact absurd rfl answered
  | read => exact List.prefix_rfl
  | mkstemp => exact List.prefix_append _ _
  | ftruncate =>
      simp only [World.ftruncate_calls, List.append_assoc]
      exact List.prefix_append _ _
  | mmap =>
      simp only [World.mmap_calls, World.ftruncate_calls, List.append_assoc]
      exact List.prefix_append _ _
  | mkdir => exact List.prefix_append _ _
  | rename => exact List.prefix_append _ _

theorem Cut.calls_isPrefix {e : Exit} {s : ConnectionState × World} (cut : Cut k s e w)
    (answered : e ≠ .blocked) : s.2.calls <+: w.calls := by
  obtain ⟨mid, chain, abort⟩ := cut
  exact (Chain.calls_isPrefix chain).trans (abort.calls_isPrefix answered)

end Moves

end Enuwatch.Daemon

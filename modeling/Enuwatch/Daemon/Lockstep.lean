import Enuwatch.Daemon.Invariant

/-!
# Daemons that differ in one descriptor

Two daemons are alike when they differ in nothing but what one number of their descriptor tables
refers to. As long as that number is not handed out in the one where it is free, and `poll` reports
nothing on it in the other, they go on in lockstep: they accept the same clients under the same
numbers, read the same bytes and issue the same calls (`run_alike`).

The lowest free number may be the one in question while a wake-up makes its temporary file and
publishes it again. The two daemons then know the same file under different numbers until the
wake-up is over (`Matched.moved`).
-/

set_option autoImplicit false

namespace Enuwatch.Daemon

open Enuwatch.Lib Enuwatch.Net

/-! ## Tables -/

section Tables

variable {fd : ℤ} {t t' : Slots Desc}

/-- The number `fd` is not open. -/
def Free (fd : ℤ) (t : Slots Desc) : Prop := 0 ≤ fd → t.get fd.toNat = none

instance (fd : ℤ) (t : Slots Desc) : Decidable (Free fd t) :=
  inferInstanceAs (Decidable (_ → _))

theorem free_iff : Free fd t ↔ ∀ m : ℕ, (m : ℤ) = fd → t.get m = none := by
  constructor
  · rintro free m rfl
    exact free (by omega)
  · exact fun free open_ => free fd.toNat (by omega)

/-- The tables agree on every number but `fd`. -/
def AgreeOff (fd : ℤ) (t t' : Slots Desc) : Prop := ∀ m : ℕ, (m : ℤ) ≠ fd → t'.get m = t.get m

/-- The next number is the same, unless it is the one they differ in. -/
theorem AgreeOff.next (agree : AgreeOff fd t t') (free : Free fd t) (other : (t.next : ℤ) ≠ fd) :
    t'.next = t.next := by
  refine Slots.next_eq ((agree _ other).trans t.get_next) fun j below => ?_
  have used : t.get j ≠ none := Slots.get_of_lt_next below
  rwa [agree j fun same => used (free_iff.1 free j same)]

theorem AgreeOff.alloc (agree : AgreeOff fd t t') (free : Free fd t) (other : (t.next : ℤ) ≠ fd)
    (v : Desc) : AgreeOff fd (t.alloc v) (t'.alloc v) := by
  intro m differs
  rw [Slots.get_alloc, Slots.get_alloc, agree.next free other, agree m differs]

theorem Free.alloc (free : Free fd t) (other : (t.next : ℤ) ≠ fd) (v : Desc) :
    Free fd (t.alloc v) := by
  refine free_iff.2 fun m same => ?_
  rw [Slots.get_alloc, if_neg, free_iff.1 free m same]
  rintro rfl
  exact other same

theorem Free.close {w : World} (free : Free fd w.table) (own : ℤ) :
    Free fd (w.close own).table := by
  refine free_iff.2 fun m same => ?_
  rw [get_close, free_iff.1 free m same, ite_self]

theorem AgreeOff.close {w w' : World} (agree : AgreeOff fd w.table w'.table) (own : ℤ) :
    AgreeOff fd (w.close own).table (w'.close own).table := by
  intro m differs
  rw [get_close, get_close, agree m differs]

end Tables

/-! ## Worlds -/

namespace World

/-- The world without its descriptors. -/
def core (w : World) : World := { w with table := ⟨[]⟩, closes := [] }

@[simp] theorem core_close (w : World) (fd : ℤ) : (w.close fd).core = w.core := by
  cases fd <;> rfl

@[simp] theorem core_destroy (st : ConnectionState) (w : World) : (st.destroy w).core = w.core := by
  simp [ConnectionState.destroy]

@[simp] theorem core_destroyAll (states : AList fun _ : ℕ => ConnectionState) (w : World) :
    (destroyAll states w).core = w.core := by
  unfold destroyAll
  induction states.entries generalizing w with
  | nil => rfl
  | cons entry entries ih => rw [List.foldl_cons, ih, core_destroy]

theorem core_unlinkAnonFiles (w : World) : (unlinkAnonFiles w).core = unlinkAnonFiles w.core := by
  have unlinks (paths : List Bytes) : ∀ w : World,
      (paths.foldl (fun w path => w.commit (w.fs.unlink (w.locate path))) w).core =
        paths.foldl (fun w path => w.commit (w.fs.unlink (w.locate path))) w.core := by
    induction paths with
    | nil => exact fun _ => rfl
    | cons path paths ih => exact fun w => ih _
  exact unlinks w.anonFiles w

/-- Worlds with the same core differ in their descriptors. -/
theorem eq_of_core {w w' : World} (same : w'.core = w.core) :
    w' = { w with table := w'.table, closes := w'.closes } := by
  obtain ⟨table, fs, accepted, anonFiles, answers, received, calls, closes, moments⟩ := w
  obtain ⟨table', fs', accepted', anonFiles', answers', received', calls', closes', moments'⟩ := w'
  simp only [core, World.mk.injEq, true_and] at same ⊢
  exact same

theorem answers_of_core {w w' : World} (same : w'.core = w.core) : w'.answers = w.answers :=
  show w'.core.answers = w.core.answers from congrArg World.answers same

end World

/-! ## One wake-up -/

/-- A connection has the number `own` for its temporary file in one table and `own'` in the other:
the same one, and the tables agree but for `fd`, which is free in the first. -/
structure Level (fd own : ℤ) (t : Slots Desc) (own' : ℤ) (t' : Slots Desc) : Prop where
  number : own' = own
  free : Free fd t
  agree : AgreeOff fd t t'

/-- The temporary file may have been given the number `fd` in the first table and another one in the
second; when both have closed it, the tables agree again. -/
inductive Matched (fd own : ℤ) (t : Slots Desc) (own' : ℤ) (t' : Slots Desc) : Prop
  | level (level : Level fd own t own' t')
  | moved {m m' : ℕ} (number : own = m) (taken : (m : ℤ) = fd) (used : t.get m ≠ none)
      (number' : own' = m') (agree : AgreeOff fd (t.free m) (t'.free m'))

/-- A connection in two worlds that differ in their descriptors, which are related by `M`. -/
inductive Twin (M : ℤ → Slots Desc → ℤ → Slots Desc → Prop) :
    ConnectionState × World → ConnectionState × World → Prop
  | mk {st : ConnectionState} {w : World} {own : ℤ} {t : Slots Desc}
      {closes : List (ℕ × Option Desc)} (related : M st.anonFd w.table own t) :
      Twin M (st, w) ({ st with anonFd := own }, { w with table := t, closes := closes })

/-- Two wake-ups that exit in the same way. -/
inductive TwinExit : Exit → Exit → World → World → Prop
  | blocked {w w' : World} : TwinExit .blocked .blocked w w'
  | fatal {w w' : World} (same : w'.core = w.core) : TwinExit .fatal .fatal w w'
  | returned {st st' : ConnectionState} {w w' : World} (same : w'.core = w.core) :
      TwinExit (.returned st) (.returned st') w w'

/-- The two programs end in the same way, and leave a connection whose descriptors are related by
`M`. -/
abbrev Together (M : ℤ → Slots Desc → ℤ → Slots Desc → Prop) (x y : Sys ConnectionState)
    (w w' : World) : Prop :=
  wp₂ x y (fun st st' w w' => Twin M (st, w) (st', w')) TwinExit w w'

section WakeUp

variable {M : ℤ → Slots Desc → ℤ → Slots Desc → Prop} {fd : ℤ} {k : ℕ} {ans : Answers}
  {st st' : ConnectionState} {w w' : World}

theorem Twin.mono {M' : ℤ → Slots Desc → ℤ → Slots Desc → Prop} (twin : Twin M (st, w) (st', w'))
    (weaker : ∀ {own t own' t'}, M own t own' t' → M' own t own' t') :
    Twin M' (st, w) (st', w') := by
  cases twin with | mk related => exact .mk (weaker related)

theorem Together.matched {x y : Sys ConnectionState} (level : Together (Level fd) x y w w') :
    Together (Matched fd) x y w w' :=
  wp₂_mono level (fun _ _ _ _ twin => twin.mono .level) fun _ _ _ _ => id

theorem Twin.kind (twin : Twin M (st, w) (st', w')) : st'.kind = st.kind := by
  cases twin
  rfl

theorem wp₂_issue {call : Call} {effect : Fs → Fs} {α β : Type} {f : Unit → Sys α}
    {g : Unit → Sys β} {R : α → β → World → World → Prop} {closes : List (ℕ × Option Desc)}
    {t : Slots Desc}
    (rest : wp₂ (f ()) (g ()) R TwinExit (w.issue call effect)
      { w.issue call effect with table := t, closes := closes }) :
    wp₂ (issue call effect >>= f) (issue call effect >>= g) R TwinExit w
      { w with table := t, closes := closes } := by
  refine wp₂_bind ?_
  unfold issue
  refine wp₂_get (wp₂_set ?_)
  split
  · exact wp₂_pure rest
  · exact wp₂_throw (.fatal rfl)

/-- Both read the same bytes. -/
theorem advance_twin (target : Target) (twin : Twin M (st, w) (st', w')) :
    wp₂ (advance k target st) (advance k target st')
      (fun r r' w w' => r'.1 = r.1 ∧ Twin M (r.2, w) (r'.2, w')) TwinExit w w' := by
  cases twin with | mk related =>
  unfold advance
  refine wp₂_get ?_
  dsimp only
  cases readPartial (sizeSub st.goal st.progress) w.answers with
  | none => exact wp₂_throw .blocked
  | some t =>
      refine wp₂_set ?_
      cases target <;> cases t.result.kind <;> exact wp₂_pure ⟨rfl, .mk related⟩

/-- What follows a read may rely on the same progress of both. -/
theorem wp₂_advance {α β : Type} {target : Target} {f : Progress × ConnectionState → Sys α}
    {g : Progress × ConnectionState → Sys β} {R : α → β → World → World → Prop}
    (twin : Twin M (st, w) (st', w'))
    (rest : ∀ p st st' w w', Twin M (st, w) (st', w') →
      wp₂ (f (p, st)) (g (p, st')) R TwinExit w w') :
    wp₂ (advance k target st >>= f) (advance k target st' >>= g) R TwinExit w w' := by
  refine wp₂_seq (advance_twin target twin) ?_
  rintro ⟨p, st⟩ ⟨p', st'⟩ w w' ⟨same, twin⟩
  obtain rfl : p' = p := same
  exact rest p' st st' w w' twin

theorem headerP1_twin (twin : Twin M (st, w) (st', w')) :
    Together M (headerP1 k st) (headerP1 k st') w w' := by
  have kind' := twin.kind
  cases kind : st.kind with
  | headerP1 =>
      simp only [headerP1, kind'.trans kind, kind]
      refine wp₂_advance twin fun p st st' w w' twin => ?_
      cases twin with | mk related =>
      cases p with
      | fail => exact wp₂_throw (.returned rfl)
      | part => exact wp₂_pure (.mk related)
      | done => exact wp₂_pure (.mk related)
  | connected | headerP2 | receiving =>
      simp only [headerP1, kind'.trans kind, kind]
      exact wp₂_pure twin

/-- Both close the temporary file. -/
theorem Matched.close {own : ℤ} (matched : Matched fd st.anonFd w.table own w'.table) :
    Level fd (-1) (w.close st.anonFd).table (-1) (w'.close own).table := by
  cases matched with
  | level level =>
      rw [level.number]
      exact ⟨rfl, level.free.close _, level.agree.close _⟩
  | moved number taken used number' agree =>
      subst number'
      rw [number]
      refine ⟨rfl, free_iff.2 fun m same => ?_, agree⟩
      rw [get_close, if_pos (taken.trans same.symm)]

/-- The connection is reset, and is between messages again. -/
theorem reset_twin (twin : Twin (Matched fd) (st, w) (st', w')) :
    Together (Level fd) (do let st ← st.reset; return { st with kind := .connected })
      (do let st ← st'.reset; return { st with kind := .connected }) w w' := by
  cases twin with | @mk st w own t closes matched =>
  have closed : Level fd (-1) (w.close st.anonFd).table (-1)
    (({ w with table := t, closes := closes } : World).close own).table := Matched.close matched
  have same : (({ w with table := t, closes := closes } : World).close own).core =
      (w.close st.anonFd).core := by
    rw [World.core_close, World.core_close]
    rfl
  unfold ConnectionState.reset
  refine wp₂_bind (wp₂_modify (wp₂_pure (wp₂_pure ?_)))
  rw [World.eq_of_core same]
  exact .mk closed

theorem makeDirectory_twin (twin : Twin (Matched fd) (st, w) (st', w')) :
    Together (Level fd) (makeDirectory k ans st) (makeDirectory k ans st') w w' := by
  cases twin with | mk matched =>
  exact wp₂_get (wp₂_issue (reset_twin (.mk matched)))

/-- The temporary file gets a number that is the same for both, or the one they differ in. -/
theorem AgreeOff.matched_alloc {t t' : Slots Desc} (agree : AgreeOff fd t t') (free : Free fd t)
    (v : Desc) : Matched fd t.next (t.alloc v) t'.next (t'.alloc v) := by
  by_cases other : (t.next : ℤ) = fd
  · refine .moved rfl other (by simp) rfl fun m differs => ?_
    have apart : m ≠ t.next := by
      rintro rfl
      exact differs other
    rw [Slots.get_free, Slots.get_free, Slots.get_alloc, Slots.get_alloc, if_neg apart,
      if_neg apart]
    split
    · rename_i next
      rw [← agree m differs, next, Slots.get_next]
    · exact agree m differs
  · rw [agree.next free other]
    exact .level ⟨rfl, free.alloc other v, agree.alloc free other v⟩

theorem openTransfer_twin {msg : DataMessage} (twin : Twin (Level fd) (st, w) (st', w')) :
    Together (Matched fd) (openTransfer k msg ans st) (openTransfer k msg ans st') w w' := by
  cases twin with | @mk st w own t closes level =>
  have matched (ino : ℕ) := level.agree.matched_alloc level.free (.temp ino)
  unfold openTransfer createAnonfile
  refine wp₂_bind (wp₂_get (wp₂_issue (wp₂_modify (wp₂_issue (wp₂_modify (wp₂_pure ?_))))))
  dsimp only
  split
  · refine wp₂_issue (wp₂_get (wp₂_bind (wp₂_pure (wp₂_pure ?_))))
    simp only [World.issue_table, Slots.get_alloc_next]
    exact .mk (matched _)
  · exact wp₂_bind (wp₂_pure (wp₂_pure (.mk (matched _))))

theorem headerP2_twin (twin : Twin (Level fd) (st, w) (st', w')) :
    Together (Matched fd) (headerP2 k ans st) (headerP2 k ans st') w w' := by
  have kind' := twin.kind
  cases kind : st.kind with
  | headerP2 =>
      simp only [headerP2, kind'.trans kind, kind]
      refine wp₂_advance twin fun p st st' w w' twin => ?_
      cases twin with | mk level =>
      cases p with
      | fail => exact wp₂_throw (.returned rfl)
      | part => exact wp₂_pure (.mk (.level level))
      | done =>
          dsimp only
          split
          · exact openTransfer_twin (.mk level)
          · exact Together.matched (makeDirectory_twin (.mk (.level level)))
  | connected | headerP1 | receiving =>
      simp only [headerP2, kind'.trans kind, kind]
      exact wp₂_pure (twin.mono .level)

theorem receiving_twin (twin : Twin (Matched fd) (st, w) (st', w')) :
    Together (Matched fd) (receiving k ans st) (receiving k ans st') w w' := by
  have kind' := twin.kind
  cases kind : st.kind with
  | receiving =>
      simp only [receiving, kind'.trans kind, kind]
      refine wp₂_advance twin fun p st st' w w' twin => ?_
      cases twin with | mk matched =>
      cases p with
      | fail => exact wp₂_throw (.returned rfl)
      | part => exact wp₂_pure (.mk matched)
      | done =>
          refine wp₂_get ?_
          unfold moveAnonfile
          refine wp₂_bind (wp₂_get (wp₂_issue (wp₂_modify (wp₂_pure ?_))))
          exact Together.matched (reset_twin (.mk matched))
  | connected | headerP1 | headerP2 =>
      simp only [receiving, kind'.trans kind, kind]
      exact wp₂_pure twin

/-- **Two wake-ups of a connection go the same way.** -/
theorem wakeUp_twin (twin : Twin (Level fd) (st, w) (st', w')) :
    Together (Matched fd) (wakeUp k ans st) (wakeUp k ans st') w w' := by
  have armed : Twin (Level fd) (arm st, w) (arm st', w') := by
    have kind' := twin.kind
    cases kind : st.kind with
    | connected =>
        simp only [arm, kind'.trans kind, kind]
        cases twin with | mk level => exact .mk level
    | headerP1 | headerP2 | receiving =>
        simp only [arm, kind'.trans kind, kind]
        exact twin
  refine wp₂_seq (headerP1_twin armed) fun st st' w w' twin => ?_
  exact wp₂_seq (headerP2_twin twin) fun st st' w w' twin => receiving_twin twin

end WakeUp

/-! ## One step -/

/-- The daemons differ at most in what the descriptor `fd` refers to, and in what it referred to
when it was closed. -/
structure Alike (fd : ℤ) (d e : Server) : Prop where
  nConns : e.nConns = d.nConns
  fds : e.fds = d.fds
  socketFds : e.socketFds = d.socketFds
  states : e.states = d.states
  idx : e.idx = d.idx
  status : e.status = d.status
  core : e.world.core = d.world.core
  table : d.status = .running → AgreeOff fd d.world.table e.world.table

/-- `poll` reports nothing on the descriptor `fd`. -/
def Unreported (fd : ℤ) (d : Server) : Input → Prop
  | .poll revents => ∀ pair ∈ d.fds.zip revents, (pair.1.fd : ℤ) = fd → pair.2 = {}
  | .round _ => ∀ pfd ∈ d.fds[d.idx]?, (pfd.fd : ℤ) = fd → pfd.revents = {}
  | .interrupted => True
  | .pollFailed => True

instance (fd : ℤ) (d : Server) (input : Input) : Decidable (Unreported fd d input) :=
  match input with
  | .poll revents => inferInstanceAs (Decidable (∀ pair ∈ d.fds.zip revents, _))
  | .round _ => inferInstanceAs (Decidable (∀ pfd ∈ d.fds[d.idx]?, _))
  | .interrupted => isTrue trivial
  | .pollFailed => isTrue trivial

/-- The step leaves the number `fd` free. -/
def Retires (fd : ℤ) (d : Server) (input : Input) : Prop :=
  ∀ d' ∈ step d input, Free fd d'.world.table

instance (fd : ℤ) (d : Server) (input : Input) : Decidable (Retires fd d input) :=
  inferInstanceAs (Decidable (∀ d' ∈ step d input, _))

/-- The daemon with other descriptors. -/
def Server.refit (d : Server) (t : Slots Desc) (closes : List (ℕ × Option Desc)) : Server :=
  { d with world := { d.world with table := t, closes := closes } }

section Step

variable {fd : ℤ} {d e : Server} {t : Slots Desc} {closes : List (ℕ × Option Desc)} {pfd : PollFd}
  {ans : Answers} {input : Input}

theorem Alike.eq_refit (alike : Alike fd d e) :
    e = d.refit e.world.table e.world.closes := by
  have world := World.eq_of_core alike.core
  obtain ⟨nConns, fds, socketFds, states, idx, status, -, -⟩ := alike
  obtain ⟨nConns', fds', socketFds', states', idx', world', status'⟩ := e
  dsimp only at nConns fds socketFds states idx status world
  subst nConns fds socketFds states idx status
  exact congrArg (Server.mk _ _ _ _ _ · _) world

theorem alike_refit (table : d.status = .running → AgreeOff fd d.world.table t) :
    Alike fd d (d.refit t closes) :=
  ⟨rfl, rfl, rfl, rfl, rfl, rfl, rfl, table⟩

theorem pollAnswer_iff {revents : Revents} (agree : AgreeOff fd d.world.table t)
    (unreported : (pfd.fd : ℤ) = fd → revents = {}) :
    Server.pollAnswer t pfd revents ↔ Server.pollAnswer d.world.table pfd revents := by
  unfold Server.pollAnswer
  by_cases same : (pfd.fd : ℤ) = fd
  · simp [unreported same]
  · rw [agree pfd.fd same]

theorem AgreeOff.destroy {w w' : World} (agree : AgreeOff fd w.table w'.table)
    (st : ConnectionState) : AgreeOff fd (st.destroy w).table (st.destroy w').table :=
  ((agree.close _).close _).close _

theorem hangUp_alike (agree : AgreeOff fd d.world.table t) (x : ℕ) :
    Alike fd (d.hangUp x) ((d.refit t closes).hangUp x) := by
  have agree' : AgreeOff fd d.world.table (d.refit t closes).world.table := agree
  have same : (d.refit t closes).states = d.states := rfl
  simp only [Server.hangUp, same]
  cases d.states.lookup x with
  | none => exact ⟨rfl, rfl, rfl, rfl, rfl, rfl, rfl, fun _ => agree'⟩
  | some st =>
      refine ⟨rfl, rfl, rfl, rfl, rfl, rfl, ?_, fun _ => agree'.destroy st⟩
      simp only [World.core_destroy]
      rfl

/-- There is room for a client, and `accept` succeeds. -/
def Server.Admits (d : Server) (sock : ℕ) (ans : Answers) : Prop :=
  d.fds.length ≤ d.nConns * 2 ∧ ans.accept = true ∧
    ∃ port, d.world.table.get sock = some (.listening port)

theorem acceptClient_of_admits {sock : ℕ} (admits : d.Admits sock ans) :
    d.acceptClient sock ans =
      if d.fds.length < d.nConns * 2 then d.welcome sock else d.overflow := by
  obtain ⟨few, accept, port, listening⟩ := admits
  generalize result : d.acceptClient sock ans = d'
  cases acceptClient_inv result with
  | crowded many => exact absurd few (not_le.2 many)
  | refused _ refused => exact absurd listening (refused accept port)
  | admitted _ _ room => rw [if_pos room]
  | overflowed _ _ full => rw [if_neg (full ▸ lt_irrefl _)]

theorem acceptClient_of_not_admits {sock : ℕ} (denied : ¬ d.Admits sock ans) :
    d.acceptClient sock ans = { d with status := .fatal } := by
  generalize result : d.acceptClient sock ans = d'
  cases acceptClient_inv result with
  | crowded many => rfl
  | refused few refused => rfl
  | admitted accept listening room => exact absurd ⟨room.le, accept, _, listening⟩ denied
  | overflowed accept listening full => exact absurd ⟨full.le, accept, _, listening⟩ denied

theorem acceptClient_alike (agree : AgreeOff fd d.world.table t) (free : Free fd d.world.table)
    {sock : ℕ} (other : (sock : ℤ) ≠ fd) (retires : Free fd (d.acceptClient sock ans).world.table) :
    Alike fd (d.acceptClient sock ans) ((d.refit t closes).acceptClient sock ans) := by
  have both : (d.refit t closes).Admits sock ans ↔ d.Admits sock ans := by
    have get' : (d.refit t closes).world.table.get sock = d.world.table.get sock := agree sock other
    rw [Server.Admits, get']
    rfl
  by_cases admits : d.Admits sock ans
  · rw [acceptClient_of_admits admits] at retires ⊢
    rw [acceptClient_of_admits (both.2 admits)]
    -- The client does not get the number in which the tables differ.
    have apart : (d.world.table.next : ℤ) ≠ fd := by
      intro same
      have taken : (d.world.table.alloc (.conn d.world.accepted)).get d.world.table.next =
          none := by
        split at retires
        · exact free_iff.1 retires _ same
        · exact free_iff.1 retires _ same
      rw [Slots.get_alloc_next] at taken
      cases taken
    have next : t.next = d.world.table.next := agree.next free apart
    have agree' := agree.alloc free apart (.conn d.world.accepted)
    have size : ((d.refit t closes).fds.length < (d.refit t closes).nConns * 2) =
        (d.fds.length < d.nConns * 2) := rfl
    simp only [size]
    split
    · have same : (d.refit t closes).welcome sock =
          (d.welcome sock).refit (t.alloc (.conn d.world.accepted)) closes := by
        simp only [Server.welcome, Server.refit]
        rw [next]
      rw [same]
      exact alike_refit fun _ => agree'
    · have same : (d.refit t closes).overflow =
          d.overflow.refit (t.alloc (.conn d.world.accepted)) closes := by
        simp only [Server.overflow, Server.refit]
        rw [next]
      rw [same]
      exact alike_refit fun _ => agree'
  · rw [acceptClient_of_not_admits admits,
      acceptClient_of_not_admits fun same => admits (both.1 same)]
    exact ⟨rfl, rfl, rfl, rfl, rfl, rfl, rfl, fun running => by cases running⟩

/-- A wake-up that leaves the number `fd` free leaves the daemons alike. -/
theorem wake_alike {st st' : ConnectionState} {w w' : World}
    (twin : Twin (Matched fd) (st, w) (st', w')) (free : Free fd w.table) (x : ℕ) :
    Alike fd (d.wake x st w) ((d.refit t closes).wake x st' w') := by
  cases twin with | mk matched =>
  cases matched with
  | level level =>
      rw [level.number]
      exact ⟨rfl, rfl, rfl, rfl, rfl, rfl, rfl, fun _ => level.agree⟩
  | moved _ taken used => exact absurd (free_iff.1 free _ taken) used

theorem returnFalse_alike {st st' : ConnectionState} {w w' : World} (same : w'.core = w.core)
    (x : ℕ) : Alike fd ({ d with states := d.states.insert x st }.returnFalse w)
      ({ d.refit t closes with states := d.states.insert x st' }.returnFalse w') := by
  refine ⟨rfl, rfl, rfl, rfl, rfl, rfl, ?_, fun running => by cases running⟩
  simp only [Server.returnFalse, World.core_unlinkAnonFiles, World.core_destroyAll, same]

/-- What a wake-up of `readable` is. -/
theorem readable_of_conn {x k : ℕ} (conn : d.world.table.get x = some (.conn k)) :
    d.readable x ans =
      match wakeUp k ans (d.stateOf x) (d.answered ans) with
      | .ok st w => if w.answers = [] then some (d.wake x st w) else none
      | .error (.returned st) w =>
          if w.answers = [] then some ({ d with states := d.states.insert x st }.returnFalse w)
          else none
      | .error .fatal w =>
          if w.answers = [] then some { d with world := w, status := .fatal } else none
      | .error .blocked _ => none := by
  simp only [Server.readable, conn]
  rfl

theorem readable_of_not_conn {x : ℕ} (other : ∀ k, d.world.table.get x ≠ some (.conn k)) :
    d.readable x ans =
      some ({ d with states := d.states.insert x (d.stateOf x) }.returnFalse d.world) := by
  simp only [Server.readable]
  rfl

theorem readable_alike (agree : AgreeOff fd d.world.table t) (free : Free fd d.world.table) {x : ℕ}
    (other : (x : ℤ) ≠ fd) (retires : ∀ d' ∈ d.readable x ans, Free fd d'.world.table) :
    Option.Rel (Alike fd) (d.readable x ans) ((d.refit t closes).readable x ans) := by
  have get' : (d.refit t closes).world.table.get x = d.world.table.get x := agree x other
  by_cases conn : ∃ k, d.world.table.get x = some (.conn k)
  · obtain ⟨k, conn⟩ := conn
    have twin : Twin (Level fd) (d.stateOf x, d.answered ans)
        ((d.refit t closes).stateOf x, (d.refit t closes).answered ans) := .mk ⟨rfl, free, agree⟩
    have both : Together (Matched fd) (wakeUp k ans (d.stateOf x))
      (wakeUp k ans ((d.refit t closes).stateOf x)) _ _ := wakeUp_twin twin
    rw [readable_of_conn conn] at retires ⊢
    rw [readable_of_conn (get'.trans conn)]
    unfold Together wp₂ at both
    split at both
    · rename_i st w st' w' ran ran'
      simp only [ran, ran'] at retires ⊢
      have answers : w'.answers = w.answers := by
        cases both
        rfl
      rw [answers]
      split
      · rename_i used
        rw [if_pos used] at retires
        exact .some (wake_alike both (retires _ rfl) x)
      · exact .none
    · rename_i e w e' w' ran ran'
      simp only [ran, ran']
      cases both with
      | blocked => exact .none
      | fatal same =>
          simp only [World.answers_of_core same]
          split
          · exact .some ⟨rfl, rfl, rfl, rfl, rfl, rfl, same, fun running => by cases running⟩
          · exact .none
      | returned same =>
          simp only [World.answers_of_core same]
          split
          · exact .some (returnFalse_alike same x)
          · exact .none
    · exact both.elim
  · have gone : ∀ k, d.world.table.get x ≠ some (.conn k) := fun k same => conn ⟨k, same⟩
    have gone' : ∀ k, (d.refit t closes).world.table.get x ≠ some (.conn k) := by rwa [get']
    have core : (d.refit t closes).world.core = d.world.core := rfl
    rw [readable_of_not_conn gone, readable_of_not_conn gone']
    exact .some (returnFalse_alike core x)

theorem visit_alike (agree : AgreeOff fd d.world.table t) (free : Free fd d.world.table)
    (unreported : (pfd.fd : ℤ) = fd → pfd.revents = {})
    (retires : ∀ d' ∈ d.visit pfd ans, Free fd d'.world.table) :
    Option.Rel (Alike fd) (d.visit pfd ans) ((d.refit t closes).visit pfd ans) := by
  have socketFds : (d.refit t closes).socketFds = d.socketFds := rfl
  unfold Server.visit at retires ⊢
  rw [socketFds]
  by_cases flagged : (pfd.revents.hup || pfd.revents.err) = true
  · rw [if_pos flagged, if_pos flagged]
    exact .some (hangUp_alike agree pfd.fd)
  rw [if_neg flagged] at retires ⊢
  rw [if_neg flagged]
  by_cases idle : pfd.revents.input = false
  · rw [if_pos idle, if_pos idle]
    exact .some ⟨rfl, rfl, rfl, rfl, rfl, rfl, rfl, fun _ => agree⟩
  rw [if_neg idle] at retires ⊢
  rw [if_neg idle]
  have other : (pfd.fd : ℤ) ≠ fd := by
    intro same
    rw [unreported same] at idle
    exact idle rfl
  by_cases listener : pfd.fd ∈ d.socketFds
  · rw [if_pos listener] at retires ⊢
    rw [if_pos listener]
    exact .some (acceptClient_alike agree free other (retires _ rfl))
  · rw [if_neg listener] at retires ⊢
    rw [if_neg listener]
    exact readable_alike agree free other retires

/-- **Daemons that are alike take the same steps and stay alike.** -/
theorem step_alike (alike : Alike fd d e) (free : Free fd d.world.table)
    (unreported : Unreported fd e input) (retires : Retires fd d input) :
    Option.Rel (Alike fd) (step d input) (step e input) := by
  have table := alike.table
  rw [alike.eq_refit] at unreported ⊢
  generalize e.world.table = t at table unreported ⊢
  generalize e.world.closes = closes at unreported ⊢
  have status : (d.refit t closes).status = d.status := rfl
  have here : (d.refit t closes).fds[(d.refit t closes).idx]? = d.fds[d.idx]? := rfl
  unfold Retires at retires
  unfold step at retires ⊢
  rw [status, here]
  cases running : d.status with
  | returned | fatal | undefined => exact .none
  | running =>
      have agree := table running
      cases entry : d.fds[d.idx]? with
      | none =>
          cases input with
          | poll revents =>
              have allowed : (∀ pair ∈ d.fds.zip revents, Server.pollAnswer t pair.1 pair.2) ↔
                  ∀ pair ∈ d.fds.zip revents, Server.pollAnswer d.world.table pair.1 pair.2 :=
                forall₂_congr fun pair listed => pollAnswer_iff agree (unreported pair listed)
              have same : (revents.length = d.fds.length ∧
                  ∀ pair ∈ d.fds.zip revents, Server.pollAnswer t pair.1 pair.2) ↔ _ :=
                and_congr_right' allowed
              dsimp only [Server.refit]
              simp only [same]
              split
              · exact .some ⟨rfl, rfl, rfl, rfl, rfl, rfl, rfl, fun _ => agree⟩
              · exact .none
          | interrupted => exact .some (alike_refit fun _ => agree)
          | pollFailed => exact .some ⟨rfl, rfl, rfl, rfl, rfl, rfl, rfl, fun ends => by cases ends⟩
          | round ans => exact .none
      | some pfd =>
          cases input with
          | round ans =>
              simp only [running, entry] at retires
              exact visit_alike agree free (unreported pfd entry) retires
          | poll _ | interrupted | pollFailed => exact .none

end Step

/-- **Daemons that are alike go on in lockstep.** -/
theorem run_alike {fd : ℤ} {d e : Server} {inputs : List Input} (alike : Alike fd d e)
    (free : Free fd d.world.table) (unreported : Along step (Unreported fd) e inputs)
    (retires : Along step (Retires fd) d inputs) :
    Option.Rel (Alike fd) (run step d inputs) (run step e inputs) := by
  have related := retires.run_rel (R := fun d e => Alike fd d e ∧ Free fd d.world.table) ?_
    unreported ⟨alike, free⟩
  · generalize run step d inputs = last at related ⊢
    generalize run step e inputs = last' at related ⊢
    cases related with
    | none => exact .none
    | some both => exact .some both.1
  · rintro d e input ⟨alike, free⟩ retires unreported
    have moved := step_alike alike free unreported retires
    unfold Retires at retires
    generalize step d input = next at retires moved ⊢
    generalize step e input = next' at moved ⊢
    cases moved with
    | none => exact .none
    | some alike => exact .some ⟨alike, retires _ rfl⟩

end Enuwatch.Daemon

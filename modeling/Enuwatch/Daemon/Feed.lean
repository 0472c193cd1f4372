import Enuwatch.Daemon.Invariant
import Enuwatch.Daemon.Messages

/-!
# Feeding a message to a new connection

Invariants say what a run cannot do. This module says what a run can do: a daemon with at least
one listening socket can accept a connection and be handed a whole message on it in one wake-up
(`exists_fed`). The last call of that wake-up is the `mkdir` or the `rename` of the message,
whether it succeeds or not, and no other `mkdir` or `rename` comes before it (`Fed`).
-/

set_option autoImplicit false

namespace Enuwatch.Daemon

open Enuwatch.Lib Enuwatch.Net

/-- Bytes that arrive one by one. -/
def deliver (block : Bytes) : List SysRead := block.map fun b => .data [b]

/-- The path of the message that a call acts on. -/
def FsOp.target : FsOp → Option Bytes
  | .mkdir path _ => some path
  | .rename path _ => some path
  | _ => none

/-- Bytes were handed to connection `k`, and the last call acted on `path`. -/
structure Fed (bytes path : Bytes) (k : ℕ) (w w' : World) : Prop where
  answers : w'.answers = []
  received : w'.received = Function.update w.received k (w.received k ++ bytes)
  calls : ∃ opens last, w'.calls = w.calls ++ opens ++ [last] ∧ last.op.target = some path ∧
    ∀ call ∈ opens, call.op.target = none
  accepted : w'.accepted = w.accepted

section Wake

variable {k : ℕ} {w : World} {st : ConnectionState}

/-- `advance` gets what it asks for. -/
theorem wp_advance_deliver {Q : Progress × ConnectionState → World → Prop}
    {E : Exit → World → Prop} {target : Target} {block : Bytes} {rest : List SysRead}
    (fits : st.progress + block.length = st.goal) (bound : st.goal < 2 ^ 64)
    (answers : w.answers = deliver block ++ rest)
    (done : Q (.done, st.stored target block)
      (w.receive k block rest (target.storeFs block st w.fs))) :
    wp (advance k target st) Q E w := by
  have asked : sizeSub st.goal st.progress = block.length := by
    rw [sizeSub_of_le (by omega) bound]
    omega
  have read : readPartial (sizeSub st.goal st.progress) w.answers =
      some ⟨⟨.ok, block.length⟩, block, rest⟩ := by
    rw [asked, answers]
    exact readPartial_bytes block rest
  have reached : sizeAdd st.progress block.length = st.goal := by
    rw [sizeAdd_of_lt (by omega), fits]
  have stored : st.stored target block =
      { target.storeState block st with progress := st.goal } := by
    rw [ConnectionState.stored, fits]
  simp only [advance, wp_bind, wp_get, read, wp_set, wp_pure, storeState_progress, reached,
    storeState_goal, if_true]
  rw [stored] at done
  simpa only [storeState_goal] using done

theorem Message.headed_lt (m : Message) : DataMessage.size + m.path.length < 2 ^ 64 := by
  have bound := (DataMessage.decode m.hdr).pathLen.toNat_lt
  have named : m.path.length = (DataMessage.decode m.hdr).pathLen.toNat := m.named
  simp only [DataMessage.size]
  omega

/-- The counters of a complete header. -/
def headed (m : Message) (st : ConnectionState) : ConnectionState :=
  { st with
    kind := .headerP2
    progress := DataMessage.size
    goal := DataMessage.size + m.path.length
    buf := m.hdr ++ zeros m.path.length }

/-- `HeaderP1` on a whole header. -/
theorem wp_headerP1_deliver {m : Message} {Q : ConnectionState → World → Prop}
    {E : Exit → World → Prop} {rest : List SysRead} (fresh : st.kind = .headerP1)
    (progress : st.progress = 0) (goal : st.goal = DataMessage.size)
    (buf : st.buf = zeros DataMessage.size) (answers : w.answers = deliver m.hdr ++ rest)
    (done : Q (headed m st) (w.receive k m.hdr rest w.fs)) :
    wp (headerP1 k st) Q E w := by
  have stored : overwrite (zeros DataMessage.size) 0 m.hdr = m.hdr := by
    have filled := overwrite_filled [] m.hdr DataMessage.size
    simpa [m.whole] using filled
  have named : m.path.length = (DataMessage.decode m.hdr).pathLen.toNat := m.named
  have small := m.headed_lt
  unfold headerP1
  rw [fresh]
  simp only [wp_bind]
  refine wp_advance_deliver (by rw [progress, goal, m.whole]; rfl)
    (by rw [goal]; decide) answers ?_
  simp only [wp_pure, ConnectionState.stored, Target.storeState, Target.storeFs, progress, goal,
    buf, stored]
  have wide : sizeAdd DataMessage.size (DataMessage.decode m.hdr).pathLen.toNat =
      DataMessage.size + m.path.length := by
    rw [← named]
    exact sizeAdd_of_lt small
  have grown : resize m.hdr (DataMessage.size + m.path.length) = m.hdr ++ zeros m.path.length := by
    rw [← m.whole]
    exact resize_grow m.hdr m.path.length
  rw [wide, grown, m.whole, Nat.zero_add]
  exact done

/-- A complete path. -/
def addressed (m : Message) (st : ConnectionState) : ConnectionState :=
  { st with
    kind := .headerP2
    progress := DataMessage.size + m.path.length
    goal := DataMessage.size + m.path.length
    buf := m.hdr ++ m.path
    seq := m.seq
    path := m.path }

/-- `HeaderP2` on a whole path. -/
theorem wp_headerP2_deliver {m : Message} {Q : ConnectionState → World → Prop}
    {E : Exit → World → Prop} {ans : Answers} {rest : List SysRead}
    (answers : w.answers = deliver m.path ++ rest)
    (regular : isRegular m.hdr → wp (openTransfer k (DataMessage.decode m.hdr) ans (addressed m st))
      Q E (w.receive k m.path rest w.fs))
    (other : ¬ isRegular m.hdr → wp (makeDirectory k ans (addressed m st))
      Q E (w.receive k m.path rest w.fs)) :
    wp (headerP2 k ans (headed m st)) Q E w := by
  have stored : overwrite (m.hdr ++ zeros m.path.length) DataMessage.size m.path =
      m.hdr ++ m.path := by
    have filled := overwrite_filled m.hdr m.path m.path.length
    simpa [m.whole] using filled
  have msg : DataMessage.decode (m.hdr ++ m.path) = DataMessage.decode m.hdr :=
    DataMessage.decode_append m.whole m.path
  have path : ((m.hdr ++ m.path).drop DataMessage.size).take
      (DataMessage.decode m.hdr).pathLen.toNat = m.path := by
    have named : (DataMessage.decode m.hdr).pathLen.toNat = m.path.length := m.named.symm
    rw [named, ← m.whole]
    simp
  unfold headerP2
  simp only [headed, wp_bind]
  refine wp_advance_deliver rfl m.headed_lt answers ?_
  simp only [ConnectionState.stored, Target.storeState, Target.storeFs, stored, msg, path, wp_ite]
  exact ⟨regular, other⟩

/-- Bytes that arrived, and calls that were made, before a message was acted on. -/
theorem Fed.after {before bytes path : Bytes} {w₁ w₂ : World} (fed : Fed bytes path k w₁ w₂)
    (calls : ∃ opens, w₁.calls = w.calls ++ opens ∧ ∀ call ∈ opens, call.op.target = none)
    (received : w₁.received = Function.update w.received k (w.received k ++ before))
    (accepted : w₁.accepted = w.accepted) : Fed (before ++ bytes) path k w w₂ where
  answers := fed.answers
  received := by simp [fed.received, received]
  calls := by
    obtain ⟨opens, earlier, harmless⟩ := calls
    obtain ⟨more, last, later, target, harmless'⟩ := fed.calls
    refine ⟨opens ++ more, last, by simp [later, earlier], target, ?_⟩
    intro call among
    exact (List.mem_append.1 among).elim (harmless call) (harmless' call)
  accepted := fed.accepted.trans accepted

/-- One call, on the path. -/
theorem Fed.last {bytes path : Bytes} {w' : World} {call : Call} (answers : w'.answers = [])
    (received : w'.received = Function.update w.received k (w.received k ++ bytes))
    (calls : w'.calls = w.calls ++ [call]) (target : call.op.target = some path)
    (accepted : w'.accepted = w.accepted) : Fed bytes path k w w' :=
  ⟨answers, received, ⟨[], call, by simpa using calls, target, by simp⟩, accepted⟩

theorem wp_makeDirectory_fed {ans : Answers} (answers : w.answers = []) :
    wp (makeDirectory k ans st)
      (fun st' w' => st'.kind = .connected ∧ Fed [] st.path k w w')
      (fun e w' => e = .fatal ∧ Fed [] st.path k w w') w := by
  simp only [makeDirectory, ConnectionState.reset, wp_bind, wp_get]
  refine wp_issue (fun _ => ?_) fun _ => ?_
  · rw [wp_modify, wp_pure]
    exact ⟨rfl, .last (by simpa using answers) (by simp) (World.close_calls ..) rfl (by simp)⟩
  · exact ⟨rfl, .last answers (by simp) rfl rfl rfl⟩

/-- `Receiving` on whole contents. -/
theorem wp_receiving_fed {ans : Answers} {contents : Bytes} (kind : st.kind = .receiving)
    (progress : st.progress = 0) (goal : st.goal = contents.length)
    (bound : contents.length < 2 ^ 64) (answers : w.answers = deliver contents) :
    wp (receiving k ans st) (fun _ w' => Fed contents st.path k w w')
      (fun e w' => e = .fatal ∧ Fed contents st.path k w w') w := by
  unfold receiving
  rw [kind]
  simp only [wp_bind]
  have whole : w.answers = deliver contents ++ [] := by rw [answers, List.append_nil]
  refine wp_advance_deliver (by omega) (by omega) whole ?_
  simp only [wp_bind, wp_get, moveAnonfile, ConnectionState.reset]
  refine wp_issue (fun _ => ?_) fun _ => ?_
  · rw [wp_modify, wp_modify, wp_pure]
    exact .last (by simp) (by simp) (World.close_calls ..) rfl (by simp)
  · exact ⟨rfl, .last rfl rfl rfl rfl rfl⟩

/-- A transfer is open: calls were made, none of them on the path. -/
structure TransferOpen (size : ℕ) (path : Bytes) (w : World) (st' : ConnectionState) (w' : World) :
    Prop where
  kind : st'.kind = .receiving
  progress : st'.progress = 0
  goal : st'.goal = size
  path : st'.path = path
  answers : w'.answers = w.answers
  received : w'.received = w.received
  accepted : w'.accepted = w.accepted
  calls : ∃ opens, w'.calls = w.calls ++ opens ∧ ∀ call ∈ opens, call.op.target = none

/-- The kernel makes every call that it can. -/
def willing (reads : List SysRead) : Answers := { reads := reads }

theorem wp_openTransfer {msg : DataMessage} {reads : List SysRead}
    (size : msg.fsize.toNat < 2 ^ 63) (free : w.fs.CanCreate (w.locate ({} : Answers).temp)) :
    wp (openTransfer k msg (willing reads) st) (TransferOpen msg.fsize.toNat st.path w)
      (fun _ _ => False) w := by
  simp only [openTransfer, createAnonfile, wp_bind, wp_get]
  refine wp_issue (fun _ => ?_) fun refused => ?_
  · rw [wp_modify]
    refine wp_issue (fun _ => ?_) fun refused => ?_
    · rw [wp_modify, wp_pure]
      by_cases positive : msg.fsize > 0
      · simp only [if_pos positive, wp_bind, wp_get, wp_pure]
        refine wp_issue (fun _ => ?_) fun refused => ?_
        · exact ⟨rfl, rfl, rfl, rfl, rfl, rfl, rfl,
            ⟨_, by simp only [World.issue_calls, List.append_assoc]; rfl, by simp [FsOp.target]⟩⟩
        · simp [willing] at refused
      · simp only [if_neg positive]
        exact ⟨rfl, rfl, rfl, rfl, rfl, rfl, rfl,
          ⟨_, by simp only [World.issue_calls, List.append_assoc]; rfl, by simp [FsOp.target]⟩⟩
    · have large : ¬ msg.fsize.toNat < 2 ^ 63 := by simpa [willing] using refused
      exact large size
  · have full : decide (w.fs.CanCreate (w.locate (willing reads).temp)) = false := by
      simpa [willing] using refused
    exact of_decide_eq_false full free

/-- **A whole message is acted on.** -/
theorem wp_wakeUp_fed {m : Message} {client sock : ℤ}
    (size : isRegular m.hdr → fsize m.hdr < 2 ^ 63)
    (room : isRegular m.hdr → w.fs.CanCreate (w.locate ({} : Answers).temp))
    (answers : w.answers = deliver m.bytes) :
    wp (wakeUp k (willing (deliver m.bytes)) { clientFd := client, sockFd := sock })
      (fun _ w' => Fed m.bytes m.path k w w') (fun e w' => e = .fatal ∧ Fed m.bytes m.path k w w')
      w := by
  have first : w.answers = deliver m.hdr ++ (deliver m.path ++ deliver m.contents) := by
    simp [answers, Message.bytes, deliver]
  simp only [wakeUp, wp_bind]
  refine wp_headerP1_deliver rfl rfl rfl ?_ first ?_
  · simp [arm, resize_nil]
  refine wp_headerP2_deliver rfl (fun regular => ?_) fun other => ?_
  · have sized : m.contents.length = fsize m.hdr := by rw [m.sized, if_pos regular]
    have small := size regular
    refine wp_mono (wp_openTransfer (size regular) (room regular)) ?_ fun _ _ => False.elim
    intro st' w' opened
    have fed : ∀ w'', Fed m.contents st'.path k w' w'' → Fed m.bytes m.path k w w'' := by
      intro w'' fed
      rw [show st'.path = m.path from opened.path] at fed
      exact fed.after opened.calls (by simp [opened.received]) opened.accepted
    refine wp_mono (wp_receiving_fed opened.kind opened.progress (opened.goal.trans sized.symm)
      (by omega) opened.answers) (fun _ => fed) ?_
    exact fun e w'' failed => ⟨failed.1, fed w'' failed.2⟩
  · have empty : m.contents = [] := by
      have sized := m.sized
      rw [if_neg other] at sized
      exact List.eq_nil_of_length_eq_zero sized
    have fed : ∀ w'', Fed [] m.path k ((w.receive k m.hdr (deliver m.path ++ deliver m.contents)
        w.fs).receive k m.path (deliver m.contents) w.fs) w'' → Fed m.bytes m.path k w w'' := by
      intro w'' fed
      have before : ∃ opens, w.calls = w.calls ++ opens ∧
          ∀ call ∈ opens, call.op.target = none := ⟨[], by simp, by simp⟩
      have whole : Fed (m.hdr ++ m.path ++ []) m.path k w w'' := fed.after before (by simp) rfl
      simpa [Message.bytes, empty] using whole
    refine wp_mono (wp_makeDirectory_fed (by simp [empty, deliver])) ?_ ?_
    · rintro st' w'' ⟨kind, made⟩
      simp only [receiving, kind, wp_pure]
      exact fed w'' made
    · exact fun e w'' failed => ⟨failed.1, fed w'' failed.2⟩

end Wake

/-! ## A run -/

section Run

variable {d : Server}

/-- Entries without flags are passed over. -/
theorem run_skips (running : d.status = .running) (count : ℕ)
    (quiet : ∀ i < count, ∃ fd, d.fds[d.idx + i]? = some ⟨fd, {}⟩) :
    run step d (List.replicate count (.round {})) = some { d with idx := d.idx + count } := by
  induction count generalizing d with
  | zero => rfl
  | succ count ih =>
      obtain ⟨fd, here⟩ := quiet 0 (by omega)
      rw [Nat.add_zero] at here
      have passed : step d (.round {}) = some { d with idx := d.idx + 1 } := by
        simp [step, running, here, Server.visit]
      rw [List.replicate_succ, run_cons, passed]
      have rest := ih (d := { d with idx := d.idx + 1 }) running (by
        intro i below
        obtain ⟨fd, found⟩ := quiet (i + 1) (by omega)
        exact ⟨fd, by rw [← found]; congr 1; simp only; omega⟩)
      simp only at rest
      rw [Option.bind_some, rest]
      congr 2
      omega

/-- `poll` returns. -/
theorem step_poll (running : d.status = .running) (over_ : d.fds[d.idx]? = none)
    {revents : List Revents} (length : revents.length = d.fds.length)
    (allowed : ∀ pair ∈ d.fds.zip revents, Server.pollAnswer d.world.table pair.1 pair.2) :
    step d (.poll revents) = some { d with
      fds := d.fds.zipWith (fun pfd r => { pfd with revents := r }) revents, idx := 0 } := by
  simp only [step, running, over_]
  rw [if_pos ⟨length, allowed⟩]

theorem bindLoop_length (basePort : UInt16) (conns : List ℕ) (table : Slots Desc) :
    (bindLoop basePort conns table).1.length = conns.length := by
  induction conns generalizing table with
  | nil => rfl
  | cons conn conns ih => simp [bindLoop, ih]

/-- The listening sockets of a daemon that is starting. -/
theorem start_sockets (inherited : List Bool) (fs : Fs) (dmsg : DaemonInitMessage) :
    (start inherited fs dmsg).fds = (start inherited fs dmsg).socketFds.map ({ fd := · }) ∧
      (start inherited fs dmsg).idx = (start inherited fs dmsg).socketFds.length ∧
      (start inherited fs dmsg).socketFds.length = dmsg.nConns.toNat ∧
      ∀ n ∈ (start inherited fs dmsg).socketFds,
        ∃ port, (start inherited fs dmsg).world.table.get n = some (.listening port) := by
  refine ⟨rfl, rfl, ?_, (bindLoop_get _ _ _).2.2⟩
  simp [start, bindLoop_length]

/-- A readable listening socket and room for a client. -/
theorem step_accept {sock : ℕ} {port : UInt16} (running : d.status = .running)
    (here : d.fds[d.idx]? = some ⟨sock, { input := true }⟩) (listener : sock ∈ d.socketFds)
    (listening : d.world.table.get sock = some (.listening port))
    (room : d.fds.length < d.nConns * 2) : step d (.round {}) = some (d.welcome sock) := by
  have few : ¬ d.fds.length > d.nConns * 2 := by omega
  simp [step, running, here, Server.visit, listener, Server.acceptClient, few, listening, room,
    Server.welcome]

/-- A connection that was just accepted and is readable. -/
structure Accepted (fs : Fs) (d : Server) (client : ℕ) : Prop where
  running : d.status = .running
  here : d.fds[d.idx]? = some ⟨client, { input := true }⟩
  other : client ∉ d.socketFds
  fresh : ∃ sock, d.stateOf client = { clientFd := (client : ℤ), sockFd := sock }
  conn : d.world.table.get client = some (.conn 0)
  fs : d.world.fs = fs
  calls : d.world.calls = []
  received : d.world.received = fun _ => []
  accepted : d.world.accepted = 1

/-- The entry without flags. -/
def PollFd.clear (pfd : PollFd) : PollFd := ⟨pfd.fd, {}⟩

/-- `poll` clears the flags of what is not ready. -/
theorem zipWith_clear (fds : List PollFd) :
    fds.zipWith (fun pfd r => ({ pfd with revents := r } : PollFd))
      (List.replicate fds.length {}) = fds.map PollFd.clear := by
  induction fds with
  | nil => rfl
  | cons pfd fds ih => simpa [List.replicate_succ, PollFd.clear] using ih

theorem pollAnswer_clear {table : Slots Desc} {fds : List PollFd} {count : ℕ}
    {pair : PollFd × Revents} (among : pair ∈ fds.zip (List.replicate count {})) :
    Server.pollAnswer table pair.1 pair.2 :=
  fun _ => List.eq_of_mem_replicate (List.of_mem_zip among).2

/-- `poll` reports one open entry, and the loop gets to it. -/
theorem reachable_entry (running : d.status = .running) (ended : d.idx = d.fds.length)
    {before after : List PollFd} {pfd : PollFd} (fds : d.fds = before ++ pfd :: after)
    (opened : d.world.table.get pfd.fd ≠ none) :
    Reachable step d { d with
      fds := before.map PollFd.clear ++ ⟨pfd.fd, { input := true }⟩ :: after.map PollFd.clear
      idx := before.length } := by
  let revents : List Revents :=
    List.replicate before.length ({} : Revents) ++
      { input := true } :: List.replicate after.length ({} : Revents)
  have allowed : ∀ pair ∈ d.fds.zip revents, Server.pollAnswer d.world.table pair.1 pair.2 := by
    intro pair among
    rw [fds, List.zip_append (by simp), List.zip_cons_cons, List.mem_append, List.mem_cons] at among
    obtain quiet | rfl | quiet := among
    · exact pollAnswer_clear quiet
    · exact fun closed => absurd closed opened
    · exact pollAnswer_clear quiet
  have polled := step_poll running (List.getElem?_eq_none ended.ge) (by simp [fds, revents]) allowed
  rw [fds, List.zipWith_append (by simp), List.zipWith_cons_cons, zipWith_clear, zipWith_clear]
    at polled
  have passed := run_skips (d := { d with
      fds := before.map PollFd.clear ++ ⟨pfd.fd, { input := true }⟩ :: after.map PollFd.clear
      idx := 0 }) running before.length (by
    intro i below
    refine ⟨before[i].fd, ?_⟩
    simp only [Nat.zero_add]
    rw [List.getElem?_append_left (by simpa using below), List.getElem?_map,
      List.getElem?_eq_getElem below]
    rfl)
  simp only [Nat.zero_add] at passed
  exact ((Reachable.refl d).tail polled).trans ⟨_, passed⟩

/-- The rest of a pass in which nothing is ready. -/
theorem reachable_end (running : d.status = .running) {before after : List PollFd}
    (fds : d.fds = before ++ after) (position : d.idx = before.length)
    (quiet : ∀ pfd ∈ after, pfd.revents = {}) :
    Reachable step d { d with idx := d.fds.length } := by
  refine ⟨_, (run_skips running after.length ?_).trans ?_⟩
  · intro i below
    refine ⟨after[i].fd, ?_⟩
    rw [fds, position, List.getElem?_append_right (by omega), Nat.add_sub_cancel_left,
      List.getElem?_eq_getElem below, ← quiet _ (List.getElem_mem below)]
  · rw [fds, position, List.length_append]

/-- A daemon can accept a connection and find it readable. -/
theorem exists_accepted (inherited : List Bool) (fs : Fs) (dmsg : DaemonInitMessage)
    (sockets : 0 < dmsg.nConns.toNat) :
    ∃ d client, Reachable step (start inherited fs dmsg) d ∧ Accepted fs d client := by
  obtain ⟨fds, idx, length, listening⟩ := start_sockets inherited fs dmsg
  have ended : (start inherited fs dmsg).idx = (start inherited fs dmsg).fds.length := by
    rw [idx, fds, List.length_map]
  generalize bound : (start inherited fs dmsg).socketFds = socks at fds idx length listening
  obtain _ | ⟨s, rest⟩ := socks
  · simp at length
    omega
  obtain ⟨port, opened⟩ := listening s List.mem_cons_self
  -- The first listening socket is readable.
  let d₁ : Server := { start inherited fs dmsg with
    fds := ⟨s, { input := true }⟩ :: (rest.map fun fd => ({ fd } : PollFd)).map PollFd.clear
    idx := 0 }
  have front : (start inherited fs dmsg).fds =
      [] ++ { fd := s } :: rest.map fun fd => ({ fd } : PollFd) := fds
  have readable : Reachable step (start inherited fs dmsg) d₁ :=
    reachable_entry rfl ended front (by simp [opened])
  have room : d₁.fds.length < d₁.nConns * 2 := by
    have count : d₁.fds.length = (s :: rest).length := by simp [d₁]
    have conns : d₁.nConns = dmsg.nConns.toNat := rfl
    omega
  have listed : s ∈ d₁.socketFds := by
    rw [show d₁.socketFds = s :: rest from bound]
    exact List.mem_cons_self
  have admitted := readable.tail (step_accept rfl rfl listed opened room)
  -- Then, after a quiet pass, the client is.
  have quiet : Reachable step (d₁.welcome s)
      { d₁.welcome s with idx := (d₁.welcome s).fds.length } := by
    have split : (d₁.welcome s).fds = [⟨s, { input := true }⟩] ++
        ((rest.map fun fd => ({ fd } : PollFd)).map PollFd.clear ++
          [⟨d₁.world.table.next, {}⟩]) := rfl
    refine reachable_end rfl split rfl ?_
    intro pfd among
    obtain ⟨other, -, rfl⟩ | rfl :=
      (List.mem_append.1 among).imp List.mem_map.1 List.mem_singleton.1
    · rfl
    · rfl
  have conn : (d₁.welcome s).world.table.get d₁.world.table.next = some (.conn 0) :=
    Slots.get_alloc_next _ _
  have last : (d₁.welcome s).fds = d₁.fds ++ ⟨d₁.world.table.next, {}⟩ :: [] := rfl
  have ready := reachable_entry (d := { d₁.welcome s with idx := (d₁.welcome s).fds.length })
    rfl rfl last (by rw [conn]; simp)
  refine ⟨_, d₁.world.table.next, (admitted.trans quiet).trans ready, rfl, ?_, ?_, ⟨s, ?_⟩, conn,
    rfl, rfl, rfl, rfl⟩
  · simp
  · intro listener
    obtain ⟨port, open_⟩ := listening _ (bound ▸ listener)
    exact absurd open_ (by rw [Slots.get_next]; simp)
  · have inserted : (d₁.welcome s).states.lookup d₁.world.table.next =
        some { clientFd := (d₁.world.table.next : ℤ), sockFd := (s : ℤ) } := AList.lookup_insert _
    rw [Server.stateOf, inserted]
    rfl

/-- The wake-up of a connection that was just accepted. -/
theorem Accepted.fed {fs : Fs} {client : ℕ} (accepted : Accepted fs d client) {m : Message}
    (size : isRegular m.hdr → fsize m.hdr < 2 ^ 63)
    (room : isRegular m.hdr → fs.CanCreate (locate fs.cwd ({} : Answers).temp)) :
    ∃ d', step d (.round (willing (deliver m.bytes))) = some d' ∧
      Fed m.bytes m.path 0 d.world d'.world := by
  obtain ⟨running, here, other, ⟨sock, fresh⟩, conn, disk, -, -, -⟩ := accepted
  let w := d.answered (willing (deliver m.bytes))
  have free : isRegular m.hdr → w.fs.CanCreate (w.locate ({} : Answers).temp) := by
    intro regular
    rw [World.locate, show w.fs = fs from disk]
    exact room regular
  have woken : wp (wakeUp 0 (willing (deliver m.bytes))
      { clientFd := (client : ℤ), sockFd := sock })
      (fun _ w' => Fed m.bytes m.path 0 w w')
      (fun e w' => e = .fatal ∧ Fed m.bytes m.path 0 w w') w := wp_wakeUp_fed size free rfl
  have visited : step d (.round (willing (deliver m.bytes))) =
      d.readable client (willing (deliver m.bytes)) := by
    simp [step, running, here, Server.visit, other]
  rw [← fresh] at woken
  rw [visited]
  simp only [Server.readable, conn]
  cases outcome : wakeUp 0 (willing (deliver m.bytes)) ((d.states.lookup client).getD {})
      { d.world with answers := (willing (deliver m.bytes)).reads } with
  | ok st w' =>
      have fed : Fed m.bytes m.path 0 w w' := (wp_ok outcome).1 woken
      exact ⟨_, if_pos fed.answers, fed.answers, fed.received, fed.calls, fed.accepted⟩
  | error e w' =>
      have failed : e = .fatal ∧ Fed m.bytes m.path 0 w w' := (wp_error outcome).1 woken
      obtain ⟨rfl, fed⟩ := failed
      exact ⟨_, if_pos fed.answers, fed.answers, fed.received, fed.calls, fed.accepted⟩

end Run

/-- **A daemon can be handed a whole message on its first connection.** The message is acted on
with its last call. -/
theorem exists_fed (inherited : List Bool) (fs : Fs) (dmsg : DaemonInitMessage)
    (listens : dmsg.nConns ≠ 0) {m : Message}
    (size : isRegular m.hdr → fsize m.hdr < 2 ^ 63)
    (room : isRegular m.hdr → fs.CanCreate (locate fs.cwd ({} : Answers).temp)) :
    ∃ d, Reachable step (start inherited fs dmsg) d ∧ d.world.accepted = 1 ∧
      d.world.received 0 = m.bytes ∧ ∃ opens last, d.world.calls = opens ++ [last] ∧
        last.op.target = some m.path ∧ ∀ call ∈ opens, call.op.target = none := by
  have sockets : 0 < dmsg.nConns.toNat := by
    rw [Nat.pos_iff_ne_zero]
    exact fun zero => listens (UInt16.toNat_inj.1 zero)
  obtain ⟨d, client, reachable, accepted⟩ := exists_accepted inherited fs dmsg sockets
  obtain ⟨d', stepped, fed⟩ := accepted.fed size room
  obtain ⟨opens, last, calls, target, harmless⟩ := fed.calls
  refine ⟨d', reachable.tail stepped, fed.accepted.trans accepted.accepted, ?_, opens, last, ?_,
    target, harmless⟩
  · simp [fed.received, accepted.received]
  · simpa [accepted.calls] using calls

end Enuwatch.Daemon

import Enuwatch.Daemon.Events

/-!
# One pass over the poll entries

After `poll` the daemon goes once through `fds` with a signed index that it compares with the
unsigned size. While it does, the vector shrinks at the index and grows at its end: an entry that
hung up is erased and the index stepped back, and an accepted client is appended.

`pass` is this loop on the vector and the index alone, for any answers of the kernel. A round can
end the daemon only at an entry that is to be read, when a read of it fails, and at one that is to
be accepted from, when the vector is full or `accept` fails (`PassGoesOn`). If none does, the pass
ends and has handled the entries of its start once each and in their order (`poll_pass`); the
entries it appends come after them and are left as they are. Every pass of the daemon is one of
these (`step_pass`).
-/

set_option autoImplicit false

namespace Enuwatch.Daemon

open Enuwatch.Lib

/-! ## The vector -/

/-- `max_size()` of a vector whose elements have eight bytes. -/
def maxSize : ℕ := (2 ^ 63 - 1) / 8

/-- `std::vector<pollfd>`. -/
structure FdVector where
  entries : List PollFd
  small : entries.length ≤ maxSize

namespace FdVector

def size (v : FdVector) : ℕ := v.entries.length

def erase (v : FdVector) (i : ℕ) : FdVector where
  entries := v.entries.eraseIdx i
  small := (List.eraseIdx_sublist _ _).length_le.trans v.small

/-- Beyond `max_size()` a vector throws `std::length_error`. -/
def emplaceBack (v : FdVector) (pfd : PollFd) : Option FdVector :=
  if room : v.entries.length < maxSize then
    some ⟨v.entries ++ [pfd], by rw [List.length_append, List.length_singleton]; exact room⟩
  else none

end FdVector

/-! ## The loop -/

/-- What a round did with its entry. -/
inductive Handling where
  | hungUp (pfd : PollFd)
  | unexpected (pfd : PollFd)
  | accepted (pfd : PollFd) (client : ℕ)
  | read (pfd : PollFd)
deriving DecidableEq, Repr

/-- The answers to one round: what `accept` returns, and whether the daemon goes on after the reads
of a connection and the calls they lead to. -/
structure Outcome where
  accept : Option ℕ
  read : Bool

/-- How a round can end the daemon. -/
inductive PassEnd where
  | tooMany
  | acceptFailed
  | lengthError
  | connection
deriving DecidableEq, Repr

/-- The vector, the index, and what the rounds so far have done. -/
structure PollLoop where
  fds : FdVector
  idx : ℤ
  handled : List Handling := []

namespace PollLoop

/-- The conversion of `ssize_t` to `size_t`. -/
def sizeT (idx : ℤ) : ℕ := (idx % 2 ^ 64).toNat

/-- The entry at the index, as long as `idx < fds.size()`. -/
def current (p : PollLoop) : Option PollFd := p.fds.entries[sizeT p.idx]?

/-- `++idx`. -/
def next (p : PollLoop) : PollLoop := { p with idx := p.idx + 1 }

@[simp] theorem next_handled (p : PollLoop) : p.next.handled = p.handled := rfl

section Body

variable (listening : ℕ → Bool) (nConns : ℕ)

/-- The body of the loop at the entry `pfd`. A vector that grows may move; what the source reads
through `pfd` afterwards goes to the connection state only. -/
def body (p : PollLoop) (pfd : PollFd) (outcome : Outcome) : Except PassEnd PollLoop :=
  if pfd.revents.hup || pfd.revents.err then
    .ok { fds := p.fds.erase p.idx.toNat, idx := p.idx - 1, handled := p.handled ++ [.hungUp pfd] }
  else if pfd.revents.input = false then
    .ok { p with handled := p.handled ++ [.unexpected pfd] }
  else if listening pfd.fd then
    if p.fds.size > nConns * 2 then .error .tooMany
    else
      match outcome.accept with
      | none => .error .acceptFailed
      | some client =>
          match p.fds.emplaceBack ⟨client, {}⟩ with
          | none => .error .lengthError
          | some fds => .ok { p with fds, handled := p.handled ++ [.accepted pfd client] }
  else if outcome.read then .ok { p with handled := p.handled ++ [.read pfd] }
  else .error .connection

/-- The `for` loop, for at most so many evaluations of its condition; the round after `k` others
gets the outcome `k`. -/
def pass (outcomes : ℕ → Outcome) : ℕ → PollLoop → Option (Except PassEnd PollLoop)
  | 0, _ => none
  | fuel + 1, p =>
      match p.current with
      | none => some (.ok p)
      | some pfd =>
          match body listening nConns p pfd (outcomes p.handled.length) with
          | .error why => some (.error why)
          | .ok p' => pass outcomes fuel p'.next

end Body

end PollLoop

/-! ## What a pass is for -/

/-- The entry reports neither a hang-up nor an error. -/
def PollFd.stays (pfd : PollFd) : Bool := !(pfd.revents.hup || pfd.revents.err)

/-- The entry is one of the listening sockets, with a client to accept. -/
def PollFd.offers (listening : ℕ → Bool) (pfd : PollFd) : Bool :=
  pfd.stays && pfd.revents.input && listening pfd.fd

/-- The entry is to be read from. -/
def PollFd.reads (listening : ℕ → Bool) (pfd : PollFd) : Bool :=
  pfd.stays && pfd.revents.input && !listening pfd.fd

/-- A round at this entry does not end the daemon: what it is to be read is read, and where a
client is to be accepted there is room for it in a vector of `size` entries. -/
def PollFd.GoesOn (listening : ℕ → Bool) (nConns size : ℕ) (outcome : Outcome) (pfd : PollFd) :
    Prop :=
  (pfd.reads listening = true → outcome.read = true) ∧
    (pfd.offers listening = true →
      outcome.accept.isSome = true ∧ size ≤ nConns * 2 ∧ size < maxSize)

instance (listening : ℕ → Bool) (nConns size : ℕ) (outcome : Outcome) (pfd : PollFd) :
    Decidable (pfd.GoesOn listening nConns size outcome) :=
  inferInstanceAs (Decidable (_ ∧ _))

/-- The size of the vector when the entry `i` has its turn: the entries before it that have stayed,
the others, and a client for each socket before it that had one to accept. -/
def sizeAt (listening : ℕ → Bool) (fds : List PollFd) (i : ℕ) : ℕ :=
  ((fds.take i).filter PollFd.stays).length + (fds.drop i).length +
    ((fds.take i).filter (PollFd.offers listening)).length

/-- The round at the entry `i` does not end the daemon. -/
def RoundGoesOn (listening : ℕ → Bool) (nConns : ℕ) (outcomes : ℕ → Outcome) (fds : List PollFd)
    (i : ℕ) : Prop :=
  ∀ pfd ∈ fds[i]?, pfd.GoesOn listening nConns (sizeAt listening fds i) (outcomes i)

instance (listening : ℕ → Bool) (nConns : ℕ) (outcomes : ℕ → Outcome) (fds : List PollFd) (i : ℕ) :
    Decidable (RoundGoesOn listening nConns outcomes fds i) :=
  inferInstanceAs (Decidable (∀ pfd ∈ fds[i]?, _))

/-- No outcome of the accepts and reads of the pass ends the daemon. -/
def PassGoesOn (listening : ℕ → Bool) (nConns : ℕ) (outcomes : ℕ → Outcome) (fds : List PollFd) :
    Prop :=
  ∀ i < fds.length, RoundGoesOn listening nConns outcomes fds i

instance (listening : ℕ → Bool) (nConns : ℕ) (outcomes : ℕ → Outcome) (fds : List PollFd) :
    Decidable (PassGoesOn listening nConns outcomes fds) :=
  inferInstanceAs (Decidable (∀ i < fds.length, _))

/-- The entry of a new client. -/
def fresh (client : ℕ) : PollFd := ⟨client, {}⟩

namespace Handling

def entry : Handling → PollFd
  | .hungUp pfd => pfd
  | .unexpected pfd => pfd
  | .accepted pfd _ => pfd
  | .read pfd => pfd

def client : Handling → Option ℕ
  | .accepted _ client => some client
  | _ => none

/-- The entry asks for what was done. -/
def Fits (listening : ℕ → Bool) : Handling → Prop
  | .hungUp pfd => pfd.stays = false
  | .unexpected pfd => pfd.stays = true ∧ pfd.revents.input = false
  | .accepted pfd _ => pfd.stays = true ∧ pfd.revents.input = true ∧ listening pfd.fd = true
  | .read pfd => pfd.stays = true ∧ pfd.revents.input = true ∧ listening pfd.fd = false

end Handling

/-- The new clients, in the order in which they were accepted. -/
def clients (handled : List Handling) : List ℕ := handled.filterMap Handling.client

theorem Handling.Fits.clients {listening : ℕ → Bool} {handling : Handling}
    (fits : handling.Fits listening) :
    (clients [handling]).length = ([handling.entry].filter (PollFd.offers listening)).length := by
  cases handling with
  | hungUp pfd =>
      have leaves : pfd.stays = false := fits
      simp [Daemon.clients, Handling.client, Handling.entry, PollFd.offers, leaves]
  | unexpected pfd =>
      obtain ⟨-, silent⟩ := fits
      simp [Daemon.clients, Handling.client, Handling.entry, PollFd.offers, silent]
  | accepted pfd client =>
      obtain ⟨stays, ready, listens⟩ := fits
      simp [Daemon.clients, Handling.client, Handling.entry, PollFd.offers, stays, ready, listens]
  | read pfd =>
      obtain ⟨-, -, other⟩ := fits
      simp [Daemon.clients, Handling.client, Handling.entry, PollFd.offers, other]

theorem clients_append (first second : List Handling) :
    clients (first ++ second) = clients first ++ clients second :=
  List.filterMap_append

/-- The pass is over, and `first` is what it did with the entries it found. -/
structure PassComplete (listening : ℕ → Bool) (fds : List PollFd) (first : List Handling)
    (p : PollLoop) : Prop where
  /-- Each entry was handled once, and in order. -/
  once : first.map Handling.entry = fds
  fits : ∀ handling ∈ first, handling.Fits listening
  /-- The new entries were looked at and left alone. -/
  handled : p.handled = first ++ (clients first).map fun client => .unexpected (fresh client)
  entries : p.fds.entries = fds.filter PollFd.stays ++ (clients first).map fresh

/-! ## One round -/

namespace PollLoop

variable {listening : ℕ → Bool} {nConns : ℕ} {p p' : PollLoop} {pfd : PollFd}
  {kept rest : List PollFd}

theorem sizeT_natCast {i : ℕ} (small : i ≤ maxSize) : sizeT i = i := by
  unfold sizeT maxSize at *
  omega

/-- The index is that of the first entry after the ones that were kept. -/
theorem current_eq (entries : p.fds.entries = kept ++ rest) (idx : p.idx = kept.length) :
    p.current = rest.head? := by
  have small := p.fds.small
  rw [entries, List.length_append] at small
  rw [current, idx, sizeT_natCast (by omega), entries, List.getElem?_append_right le_rfl,
    Nat.sub_self, List.head?_eq_getElem?]

/-- A round that goes on passes over its entry or erases it, and may append a client. -/
theorem body_spec {outcome : Outcome} (goesOn : body listening nConns p pfd outcome = .ok p')
    (entries : p.fds.entries = kept ++ pfd :: rest) (idx : p.idx = kept.length) :
    ∃ handling : Handling, handling.entry = pfd ∧ handling.Fits listening ∧
      p'.handled = p.handled ++ [handling] ∧
      p'.fds.entries =
        (kept ++ [pfd].filter PollFd.stays) ++ (rest ++ (clients [handling]).map fresh) ∧
      p'.next.idx = (kept ++ [pfd].filter PollFd.stays).length := by
  unfold body at goesOn
  split at goesOn
  · rename_i flagged
    cases goesOn
    have leaves : pfd.stays = false := by rw [PollFd.stays, flagged]; rfl
    refine ⟨.hungUp pfd, rfl, leaves, rfl, ?_, ?_⟩
    · simp [FdVector.erase, entries, idx, leaves, clients, Handling.client,
        List.eraseIdx_append_of_length_le]
    · simp [next, idx, leaves]
  · rename_i quiet
    have stays : pfd.stays = true := by simp [PollFd.stays] at quiet ⊢; exact quiet
    split at goesOn
    · rename_i silent
      cases goesOn
      refine ⟨.unexpected pfd, rfl, ⟨stays, silent⟩, rfl, ?_, ?_⟩
      · simp [entries, stays, clients, Handling.client]
      · simp [next, idx, stays]
    · rename_i ready
      rw [Bool.not_eq_false] at ready
      split at goesOn
      · rename_i listens
        split at goesOn
        · cases goesOn
        · split at goesOn
          · cases goesOn
          · rename_i client _
            split at goesOn
            · cases goesOn
            · rename_i fds placed
              cases goesOn
              refine ⟨.accepted pfd client, rfl, ⟨stays, ready, listens⟩, rfl, ?_, ?_⟩
              · unfold FdVector.emplaceBack at placed
                split at placed <;> cases placed
                simp [entries, stays, clients, Handling.client, fresh]
              · simp [next, idx, stays]
      · rename_i other
        rw [Bool.not_eq_true] at other
        split at goesOn <;> cases goesOn
        refine ⟨.read pfd, rfl, ⟨stays, ready, other⟩, rfl, ?_, ?_⟩
        · simp [entries, stays, clients, Handling.client]
        · simp [next, idx, stays]

/-- A round goes on exactly if nothing at its entry ends the daemon. -/
theorem body_ok_iff {outcome : Outcome} : (∃ p', body listening nConns p pfd outcome = .ok p') ↔
    pfd.GoesOn listening nConns p.fds.size outcome := by
  unfold body PollFd.GoesOn PollFd.reads PollFd.offers PollFd.stays
  split
  · rename_i flagged
    simp [flagged]
  · rename_i quiet
    split
    · rename_i silent
      simp [silent]
    · rename_i ready
      rw [Bool.not_eq_true] at quiet
      rw [Bool.not_eq_false] at ready
      split
      · rename_i listens
        simp only [quiet, ready, listens, Bool.not_false, Bool.not_true, Bool.and_self,
          Bool.and_false, Bool.false_eq_true, false_implies, true_implies, true_and]
        split
        · rename_i many
          simp [not_le.2 many]
        · rename_i few
          cases outcome.accept with
          | none => simp
          | some client =>
              by_cases room : p.fds.size < maxSize
              · have room' : p.fds.entries.length < maxSize := room
                simp [FdVector.emplaceBack, room, room', not_lt.1 few]
              · have room' : ¬ p.fds.entries.length < maxSize := room
                simp [FdVector.emplaceBack, room, room']
      · rename_i other
        rw [Bool.not_eq_true] at other
        cases outcome.read <;> simp [quiet, ready, other]

/-! ## All rounds -/

variable {outcomes : ℕ → Outcome} {fuel : ℕ}

theorem pass_of_none (over_ : p.current = none) :
    pass listening nConns outcomes (fuel + 1) p = some (.ok p) := by
  rw [pass, over_]

theorem pass_of_error {why : PassEnd} (here : p.current = some pfd)
    (ends : body listening nConns p pfd (outcomes p.handled.length) = .error why) :
    pass listening nConns outcomes (fuel + 1) p = some (.error why) := by
  simp only [pass, here, ends]

theorem pass_of_ok (here : p.current = some pfd)
    (goesOn : body listening nConns p pfd (outcomes p.handled.length) = .ok p') :
    pass listening nConns outcomes (fuel + 1) p =
      pass listening nConns outcomes fuel p'.next := by
  simp only [pass, here, goesOn]

/-- The pass has come to the entries `rest`: those before them that stay are still there, and the
clients it has accepted come last. -/
structure Comes (listening : ℕ → Bool) (before rest : List PollFd) (added : List ℕ)
    (p : PollLoop) : Prop where
  entries : p.fds.entries = before.filter PollFd.stays ++ (rest ++ added.map fresh)
  idx : p.idx = (before.filter PollFd.stays).length
  count : p.handled.length = before.length
  accepted : added.length = (before.filter (PollFd.offers listening)).length

section Comes

variable {before : List PollFd} {added : List ℕ}

theorem Comes.size (comes : Comes listening before rest added p) :
    p.fds.size = sizeAt listening (before ++ rest) before.length := by
  simp [FdVector.size, sizeAt, comes.entries, comes.accepted, Nat.add_assoc]

/-- A round that goes on comes to the next entry. -/
theorem Comes.next {outcome : Outcome} (comes : Comes listening before (pfd :: rest) added p)
    (goesOn : body listening nConns p pfd outcome = .ok p') :
    ∃ handling : Handling, handling.entry = pfd ∧ handling.Fits listening ∧
      p'.handled = p.handled ++ [handling] ∧
      Comes listening (before ++ [pfd]) rest (added ++ clients [handling]) p'.next := by
  obtain ⟨handling, entry, fits, handled, entries, idx⟩ :=
    body_spec goesOn comes.entries comes.idx
  refine ⟨handling, entry, fits, handled, ?_, ?_, ?_, ?_⟩
  · rw [List.filter_append, List.map_append, ← List.append_assoc rest]
    exact entries
  · rw [List.filter_append]
    exact idx
  · rw [next_handled, handled, List.length_append, List.length_append, comes.count,
      List.length_singleton, List.length_singleton]
  · rw [List.length_append, comes.accepted, fits.clients, entry, List.filter_append,
      List.length_append]

/-- The round at hand goes on exactly if nothing at its entry ends the daemon. -/
theorem Comes.body_ok_iff (comes : Comes listening before (pfd :: rest) added p) :
    (∃ p', body listening nConns p pfd (outcomes p.handled.length) = .ok p') ↔
      RoundGoesOn listening nConns outcomes (before ++ pfd :: rest) before.length := by
  rw [PollLoop.body_ok_iff, comes.size, comes.count, RoundGoesOn]
  simp

/-- The rounds over the entries that were there from the start. The pass goes on through them
exactly if nothing at any of them ends the daemon. -/
theorem pass_first (comes : Comes listening before rest added p) :
    (∃ i < (before ++ rest).length, ¬ RoundGoesOn listening nConns outcomes (before ++ rest) i) ∧
      (∃ why, pass listening nConns outcomes (fuel + rest.length) p = some (.error why)) ∨
    (∀ i, before.length ≤ i → RoundGoesOn listening nConns outcomes (before ++ rest) i) ∧
      ∃ p' first, pass listening nConns outcomes (fuel + rest.length) p =
          pass listening nConns outcomes fuel p' ∧
        first.map Handling.entry = rest ∧ (∀ handling ∈ first, handling.Fits listening) ∧
        p'.handled = p.handled ++ first ∧
        Comes listening (before ++ rest) [] (added ++ clients first) p' := by
  induction rest generalizing before added p with
  | nil =>
      refine .inr ⟨fun i later pfd found => ?_, p, [], rfl, rfl, by simp, by simp, ?_⟩
      · rw [List.append_nil, List.getElem?_eq_none later] at found
        cases found
      · rwa [List.append_nil, clients, List.filterMap_nil, List.append_nil]
  | cons pfd rest ih =>
      have here : p.current = some pfd := current_eq comes.entries comes.idx
      have decides : (∃ p', body listening nConns p pfd (outcomes p.handled.length) = .ok p') ↔
          RoundGoesOn listening nConns outcomes (before ++ pfd :: rest) before.length :=
        comes.body_ok_iff
      cases done : body listening nConns p pfd (outcomes p.handled.length) with
      | error why =>
          refine .inl ⟨⟨before.length, by simp, fun goesOn => ?_⟩, why, pass_of_error here done⟩
          obtain ⟨p', ok⟩ := decides.2 goesOn
          cases done.symm.trans ok
      | ok after =>
          obtain ⟨handling, entry, fits, handled, comes'⟩ := comes.next done
          have split : before ++ [pfd] ++ rest = before ++ pfd :: rest := by simp
          have ahead := ih comes'
          rw [split] at ahead
          rw [List.length_cons, ← Nat.add_assoc, pass_of_ok here done]
          rcases ahead with ends | ⟨later, p', first, same, once, allFit, log, final⟩
          · exact .inl ends
          · refine .inr ⟨fun i i_le => ?_, p', [handling] ++ first, same, ?_,
              List.forall_mem_cons.2 ⟨fits, allFit⟩, ?_, ?_⟩
            · rcases i_le.eq_or_lt with rfl | lt_i
              · exact decides.1 ⟨_, done⟩
              · exact later i (by simpa using lt_i)
            · rw [List.map_append, once, ← entry]
              rfl
            · rw [log, next_handled, handled, List.append_assoc]
            · rw [clients_append, ← List.append_assoc added]
              exact final

end Comes

/-- The rounds over the entries that the pass has appended. -/
theorem pass_last {added : List ℕ} (entries : p.fds.entries = kept ++ added.map fresh)
    (idx : p.idx = kept.length) (enough : added.length < fuel) :
    ∃ p', pass listening nConns outcomes fuel p = some (.ok p') ∧ p'.fds = p.fds ∧
      p'.handled = p.handled ++ added.map fun client => .unexpected (fresh client) := by
  induction added generalizing kept p fuel with
  | nil =>
      obtain ⟨fuel, rfl⟩ := Nat.exists_eq_succ_of_ne_zero enough.ne'
      exact ⟨p, pass_of_none (current_eq entries idx), rfl, by simp⟩
  | cons client added ih =>
      obtain ⟨fuel, rfl⟩ := Nat.exists_eq_succ_of_ne_zero (Nat.ne_zero_of_lt enough)
      have here : p.current = some (fresh client) := current_eq entries idx
      let after : PollLoop := { p with handled := p.handled ++ [.unexpected (fresh client)] }
      have goesOn : body listening nConns p (fresh client) (outcomes p.handled.length) =
          .ok after := rfl
      have entries' : after.next.fds.entries = (kept ++ [fresh client]) ++ added.map fresh := by
        rw [List.append_assoc]
        exact entries
      have idx' : after.next.idx = (kept ++ [fresh client]).length := by
        simp [next, after, idx]
      obtain ⟨p', ends, same, handled⟩ := ih entries' idx' (Nat.lt_of_succ_lt_succ enough)
      refine ⟨p', (pass_of_ok here goesOn).trans ends, same, ?_⟩
      rw [handled, List.map_cons, next_handled, List.append_assoc, List.singleton_append]

/-- The number of clients is at most that of the rounds. -/
theorem length_clients_le (handled : List Handling) : (clients handled).length ≤ handled.length :=
  List.length_filterMap_le _ _

end PollLoop

/-! ## The pass -/

/-- A pass is over after two rounds for each entry at the latest. It ends the daemon exactly if one
of its rounds does. -/
theorem pass_ends (listening : ℕ → Bool) (nConns : ℕ) (outcomes : ℕ → Outcome) (fds : FdVector) :
    ¬ PassGoesOn listening nConns outcomes fds.entries ∧
      (∃ why, PollLoop.pass listening nConns outcomes (2 * fds.size + 1) ⟨fds, 0, []⟩ =
        some (.error why)) ∨
    PassGoesOn listening nConns outcomes fds.entries ∧
      ∃ p first, PollLoop.pass listening nConns outcomes (2 * fds.size + 1) ⟨fds, 0, []⟩ =
        some (.ok p) ∧ PassComplete listening fds.entries first p := by
  have fuel : 2 * fds.size + 1 = fds.size + 1 + fds.entries.length := by
    rw [FdVector.size]
    omega
  have comes : PollLoop.Comes listening [] fds.entries [] ⟨fds, 0, []⟩ :=
    ⟨by simp, rfl, rfl, rfl⟩
  rw [fuel]
  rcases PollLoop.pass_first comes with
    ⟨⟨i, inside, ends⟩, error⟩ | ⟨goesOn, p, first, same, once, fits, handled, over_⟩
  · exact .inl ⟨fun all => ends (all i inside), error⟩
  · have few : (clients first).length < fds.size + 1 := by
      have count : first.length = fds.size := by rw [FdVector.size, ← once, List.length_map]
      have := PollLoop.length_clients_le first
      omega
    have entries : p.fds.entries = fds.entries.filter PollFd.stays ++ (clients first).map fresh :=
      over_.entries
    obtain ⟨p', ends, untouched, log⟩ := PollLoop.pass_last entries over_.idx few
    refine .inr ⟨fun i _ => goesOn i i.zero_le, p', first, same.trans ends, once, fits, ?_, ?_⟩
    · rw [log, handled, List.nil_append]
    · rw [untouched, entries]

/-- **A pass handles every entry once and in order.** If no outcome of its accepts and reads ends
the daemon, the pass over any vector with any `revents` is over after two rounds for each entry at
the latest, and has handled each of them once. Otherwise it ends the daemon. -/
theorem poll_pass (listening : ℕ → Bool) (nConns : ℕ) (outcomes : ℕ → Outcome) (fds : FdVector) :
    (PassGoesOn listening nConns outcomes fds.entries →
      ∃ p first, PollLoop.pass listening nConns outcomes (2 * fds.size + 1) ⟨fds, 0, []⟩ =
        some (.ok p) ∧ PassComplete listening fds.entries first p) ∧
    (¬ PassGoesOn listening nConns outcomes fds.entries →
      ∃ why, PollLoop.pass listening nConns outcomes (2 * fds.size + 1) ⟨fds, 0, []⟩ =
        some (.error why)) := by
  rcases pass_ends listening nConns outcomes fds with ⟨ends, error⟩ | ⟨goesOn, complete⟩
  · exact ⟨fun goesOn => absurd goesOn ends, fun _ => error⟩
  · exact ⟨fun _ => complete, fun ends => absurd goesOn ends⟩

/-- The first entry hung up, the second listens and has a client, the third is read from. -/
def samplePass : FdVector :=
  ⟨[⟨7, { hup := true }⟩, ⟨4, { input := true }⟩, ⟨8, { input := true }⟩], by decide⟩

theorem poll_pass_sample :
    ∃ p first, PollLoop.pass (· == 4) 2 (fun _ => ⟨some 9, true⟩) 7 ⟨samplePass, 0, []⟩ =
        some (.ok p) ∧ PassComplete (· == 4) samplePass.entries first p ∧
      p.fds.entries.map PollFd.fd = [4, 8, 9] ∧
      p.handled = [.hungUp ⟨7, { hup := true }⟩, .accepted ⟨4, { input := true }⟩ 9,
        .read ⟨8, { input := true }⟩, .unexpected ⟨9, {}⟩] := by
  obtain ⟨p, first, ends, complete⟩ :=
    (poll_pass (· == 4) 2 (fun _ => ⟨some 9, true⟩) samplePass).1 (by decide)
  have result : (PollLoop.pass (· == 4) 2 (fun _ => ⟨some 9, true⟩) 7 ⟨samplePass, 0, []⟩).map
      (·.map fun p => (p.fds.entries.map PollFd.fd, p.handled)) =
    some (.ok ([4, 8, 9], [.hungUp ⟨7, { hup := true }⟩, .accepted ⟨4, { input := true }⟩ 9,
        .read ⟨8, { input := true }⟩, .unexpected ⟨9, {}⟩])) := by decide
  have same : PollLoop.pass (· == 4) 2 (fun _ => ⟨some 9, true⟩) 7 ⟨samplePass, 0, []⟩ =
    some (.ok p) := ends
  rw [same] at result
  obtain ⟨fds, handled⟩ := Prod.mk.inj (Except.ok.inj (Option.some.inj result))
  exact ⟨p, first, ends, complete, fds, handled⟩

/-! ## The passes of the daemon -/

namespace PollLoop

variable {listening : ℕ → Bool} {nConns : ℕ} {p p' : PollLoop} {pfd : PollFd}
  {outcomes outcomes' : ℕ → Outcome} {fuel : ℕ}

/-- A pass that has ended needs no further rounds. -/
theorem pass_mono {result : Except PassEnd PollLoop}
    (ended : pass listening nConns outcomes fuel p = some result) (more : ℕ) :
    pass listening nConns outcomes (fuel + more) p = some result := by
  induction fuel generalizing p with
  | zero => cases ended
  | succ fuel ih =>
      rw [Nat.add_right_comm]
      simp only [pass] at ended ⊢
      split at ended
      · exact ended
      · split at ended
        · exact ended
        · exact ih ended

theorem body_handled {outcome : Outcome} (goesOn : body listening nConns p pfd outcome = .ok p') :
    p'.handled.length = p.handled.length + 1 := by
  unfold body at goesOn
  repeat' split at goesOn
  all_goals first
    | cases goesOn; exact List.length_append
    | cases goesOn

/-- A pass reads only the outcomes from its own rounds on. -/
theorem pass_congr (same : ∀ k, p.handled.length ≤ k → outcomes k = outcomes' k) :
    pass listening nConns outcomes fuel p = pass listening nConns outcomes' fuel p := by
  induction fuel generalizing p with
  | zero => rfl
  | succ fuel ih =>
      simp only [pass, same _ le_rfl]
      split
      · rfl
      · split
        · rfl
        · rename_i after goesOn
          have longer : after.handled.length = p.handled.length + 1 := body_handled goesOn
          refine ih fun k later => same k ?_
          rw [next_handled] at later
          omega

end PollLoop

namespace Server

/-- The vector and the index of the daemon. -/
structure Views (d : Server) (p : PollLoop) : Prop where
  fds : p.fds.entries = d.fds
  idx : p.idx = d.idx
  within : d.idx ≤ d.fds.length

def listens (d : Server) (fd : ℕ) : Bool := d.socketFds.contains fd

variable {d d' : Server} {p : PollLoop} {pfd : PollFd} {ans : Answers}

/-- A round of the daemon ends it, or is a round of the loop on the vector. A client that is
accepted at the limit is appended all the same. -/
inductive Follows (d : Server) (p : PollLoop) (pfd : PollFd) (d' : Server) : Prop where
  | ends (status : d'.status = .fatal ∨ d'.status = .returned)
  | goesOn (outcome : Outcome) (p' : PollLoop)
      (round : PollLoop.body d.listens d.nConns p pfd outcome = .ok p') (views : d'.Views p'.next)
      (listens : d'.listens = d.listens) (nConns : d'.nConns = d.nConns)

/-- The index stays in the vector when a round goes past an entry. -/
theorem Views.next (views : d.Views p) (here : d.fds[d.idx]? = some pfd) {handled : List Handling}
    (fds : d'.fds = d.fds) (idx : d'.idx = d.idx + 1) :
    d'.Views { p with handled }.next := by
  obtain ⟨inside, -⟩ := List.getElem?_eq_some_iff.1 here
  refine ⟨views.fds.trans fds.symm, ?_, ?_⟩
  · simp [PollLoop.next, views.idx, idx]
  · rw [fds, idx]
    exact inside

/-- A client that is accepted is appended, with room for it or without. -/
theorem appended_follows (views : d.Views p) (here : d.fds[d.idx]? = some pfd)
    (few : d.fds.length < maxSize) (below : d.fds.length ≤ d.nConns * 2)
    (stays : (pfd.revents.hup || pfd.revents.err) = false) (ready : pfd.revents.input = true)
    (listener : d.listens pfd.fd = true) {client : ℕ} (fds : d'.fds = d.fds ++ [⟨client, {}⟩])
    (idx : d'.idx = d.idx + 1) (listens : d'.listens = d.listens) (nConns : d'.nConns = d.nConns) :
    Follows d p pfd d' := by
  have size : p.fds.entries.length = d.fds.length := congrArg List.length views.fds
  obtain ⟨inside, -⟩ := List.getElem?_eq_some_iff.1 here
  have room : p.fds.entries.length < maxSize := size ▸ few
  have place : p.fds.emplaceBack ⟨client, {}⟩ =
      some ⟨p.fds.entries ++ [⟨client, {}⟩], by simpa using room⟩ := dif_pos room
  refine .goesOn ⟨some client, true⟩
    { p with
      fds := ⟨p.fds.entries ++ [⟨client, {}⟩], by simpa using room⟩
      handled := p.handled ++ [.accepted pfd client] } ?_ ⟨?_, ?_, ?_⟩ listens nConns
  · simp [PollLoop.body, stays, ready, listener, place, FdVector.size, size, not_lt.2 below]
  · rw [fds, ← views.fds]
    rfl
  · simp [PollLoop.next, views.idx, idx]
  · rw [fds, idx, List.length_append]
    exact Nat.add_le_add_right inside.le 1

theorem acceptClient_follows (views : d.Views p) (here : d.fds[d.idx]? = some pfd)
    (few : d.nConns * 2 < maxSize) (stays : (pfd.revents.hup || pfd.revents.err) = false)
    (ready : pfd.revents.input = true) (listener : d.listens pfd.fd = true)
    (offered : d.acceptClient pfd.fd ans = d') : Follows d p pfd d' := by
  cases acceptClient_inv offered with
  | crowded => exact .ends (.inl rfl)
  | refused => exact .ends (.inl rfl)
  | admitted _ _ room =>
      exact appended_follows views here (room.trans few) room.le stays ready listener rfl rfl rfl
        rfl
  | overflowed _ _ full =>
      exact appended_follows views here (full.trans_lt few) full.le stays ready listener rfl rfl rfl
        rfl

theorem readable_follows (views : d.Views p) (here : d.fds[d.idx]? = some pfd)
    (stays : (pfd.revents.hup || pfd.revents.err) = false) (ready : pfd.revents.input = true)
    (other : d.listens pfd.fd = false) (read : d.readable pfd.fd ans = some d') :
    Follows d p pfd d' := by
  cases readable_inv read with
  | woken =>
      refine .goesOn ⟨none, true⟩ { p with handled := p.handled ++ [.read pfd] } ?_
        (views.next here rfl rfl) rfl rfl
      simp [PollLoop.body, stays, ready, other]
  | returned => exact .ends (.inr rfl)
  | failed => exact .ends (.inl rfl)
  | dangling => exact .ends (.inr rfl)

theorem visit_follows (views : d.Views p) (here : d.fds[d.idx]? = some pfd)
    (few : d.nConns * 2 < maxSize) (visited : d.visit pfd ans = some d') : Follows d p pfd d' := by
  cases visit_inv visited with
  | hungUp flagged =>
      refine .goesOn ⟨none, true⟩
        ⟨p.fds.erase p.idx.toNat, p.idx - 1, p.handled ++ [.hungUp pfd]⟩ ?_ ?_ rfl rfl
      · rw [PollLoop.body, if_pos flagged]
      · obtain ⟨inside, -⟩ := List.getElem?_eq_some_iff.1 here
        refine ⟨?_, by simp [PollLoop.next, hangUp, views.idx], ?_⟩
        · simp [PollLoop.next, FdVector.erase, hangUp, views.fds, views.idx]
        · simp only [hangUp, List.length_eraseIdx, if_pos inside]
          omega
  | skipped stays silent =>
      refine .goesOn ⟨none, true⟩ { p with handled := p.handled ++ [.unexpected pfd] } ?_
        (views.next here rfl rfl) rfl rfl
      simp [PollLoop.body, stays, silent]
  | offered stays ready listener offered =>
      exact acceptClient_follows views here few stays ready (List.contains_iff_mem.2 listener)
        offered
  | read stays ready other read =>
      have other' : d.listens pfd.fd = false := by
        rw [listens, ← Bool.not_eq_true, List.contains_iff_mem]
        exact other
      exact readable_follows views here stays ready other' read

theorem Views.current (views : d.Views p) : p.current = d.fds[d.idx]? := by
  have small := p.fds.small
  rw [views.fds] at small
  rw [PollLoop.current, views.idx, PollLoop.sizeT_natCast (views.within.trans small), views.fds]

/-- The rounds of the daemon up to the end of a pass are those of the loop, for some outcomes. -/
theorem rounds_pass {answers : List Answers} (views : d.Views p) (few : d.nConns * 2 < maxSize)
    (reaches : run step d (answers.map .round) = some d') (running : d'.status = .running)
    (over_ : d'.fds[d'.idx]? = none) :
    ∃ outcomes p', d'.Views p' ∧
      PollLoop.pass d.listens d.nConns outcomes (answers.length + 1) p = some (.ok p') := by
  induction answers generalizing d p with
  | nil =>
      cases reaches
      exact ⟨fun _ => ⟨none, true⟩, p, views, PollLoop.pass_of_none (views.current.trans over_)⟩
  | cons ans answers ih =>
      rw [List.map_cons, run_cons] at reaches
      obtain ⟨mid, stepped, rest⟩ := Option.bind_eq_some_iff.1 reaches
      have running' : mid.status = .running := by
        by_contra ended
        exact ended ((run_ended ended rest).2 ▸ running)
      cases (step_inv stepped).2 with | @round pfd _ _ here visited =>
      cases visit_follows views here few visited with
      | ends status =>
          rw [running'] at status
          simp at status
      | goesOn outcome after round views' listens nConns =>
          obtain ⟨outcomes, p', final, passed⟩ := ih views' (nConns ▸ few) rest
          -- The outcome of this round goes before those of the others.
          refine ⟨Function.update outcomes p.handled.length outcome, p', final, ?_⟩
          have own : PollLoop.body d.listens d.nConns p pfd
              (Function.update outcomes p.handled.length outcome p.handled.length) = .ok after := by
            rw [Function.update_self]
            exact round
          have others : ∀ k, after.next.handled.length ≤ k →
              Function.update outcomes p.handled.length outcome k = outcomes k := by
            intro k later
            have longer := PollLoop.body_handled round
            rw [PollLoop.next_handled] at later
            exact Function.update_of_ne (by omega) _ _
          rw [List.length_cons, PollLoop.pass_of_ok (views.current.trans here) own,
            PollLoop.pass_congr others, ← listens, ← nConns]
          exact passed

/-- **A pass of the daemon leaves the entries that did not hang up, and the new clients.** -/
theorem step_pass {answers : List Answers} (begins : d.idx = 0) (small : d.fds.length ≤ maxSize)
    (few : d.nConns * 2 < maxSize) (reaches : run step d (answers.map .round) = some d')
    (running : d'.status = .running) (over_ : d'.fds[d'.idx]? = none) :
    ∃ first p, d'.Views p ∧ PassComplete d.listens d.fds first p := by
  have views : d.Views ⟨⟨d.fds, small⟩, 0, []⟩ := ⟨rfl, by simp [begins], by simp [begins]⟩
  obtain ⟨outcomes, p, final, passed⟩ := rounds_pass views few reaches running over_
  have longer := PollLoop.pass_mono passed (2 * d.fds.length + 1)
  rw [Nat.add_comm] at longer
  -- The pass with enough rounds has the same result.
  rcases pass_ends d.listens d.nConns outcomes ⟨d.fds, small⟩ with
    ⟨-, why, ends⟩ | ⟨-, p', first, ends, complete⟩
  · cases (PollLoop.pass_mono ends (answers.length + 1)).symm.trans longer
  · obtain rfl : p' = p := Except.ok.inj (Option.some.inj
      ((PollLoop.pass_mono ends (answers.length + 1)).symm.trans longer))
    exact ⟨first, p', final, complete⟩

end Server

end Enuwatch.Daemon

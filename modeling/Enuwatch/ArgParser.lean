import Enuwatch.Lib.Buffer
import Mathlib.Data.List.Induction

/-!
# The command line

`Args::parse` goes through the arguments from the left. In each round it tries four alternatives in
order; two of them take a second argument as their value, whatever it looks like.

A round reads one item of a small grammar, or the program ends (`round_item`, `round_cases`). So the
parser returns exactly on the concatenations of items that contain a daemon flag or a host
(`parse_returns_iff`). Anything else should end in `exit(1)`, but a latency that `std::stod` rejects
throws an exception that nobody catches (`parse_iff`).
-/

set_option autoImplicit false

namespace Enuwatch.ArgParser

open Enuwatch.Lib

/-- `Args`, with `D` for `double`. -/
structure Args (D : Type) where
  daemon : Bool := false
  sequencer : Bool := false
  path : Bytes := []
  latency : D
  userHost : Bytes := []
deriving DecidableEq, Repr

/-- How the parser can end without a result: a line on the standard error and `exit(1)`, or an
exception that leaves `main`. -/
inductive Failure where
  | exit (message : Bytes)
  | uncaught
deriving DecidableEq, Repr

/-! ## The alternatives -/

/-- The lambda `strip_dash`. -/
def stripDash (arg : Bytes) : Option Bytes :=
  if (utf8 "--").isPrefixOf arg then some (arg.drop 2)
  else if (utf8 "-").isPrefixOf arg then some (arg.drop 1)
  else none

/-- The lambda `read_flag`: the arguments after the flag. -/
def readFlag (exp : Bytes) : List Bytes → Option (List Bytes)
  | [] => none
  | arg :: rest => if stripDash arg = some exp then some rest else none

/-- The lambda `read_value`: the value of the flag, and the arguments after it. -/
def readValue (exp : Bytes) (progArgs : List Bytes) :
    Except Failure (Option (Bytes × List Bytes)) :=
  match readFlag exp progArgs with
  | none => .ok none
  | some [] => .error (.exit (utf8 "flag --" ++ exp ++ utf8 " requires a value"))
  | some (value :: rest) => .ok (some (value, rest))

/-- The lambda `read_target_host`. -/
def readTargetHost : List Bytes → Option (Bytes × List Bytes)
  | [] => none
  | arg :: rest => if arg.count 64 = 1 then some (arg, rest) else none

/-! ## The parser -/

section Parse

variable {D : Type} (stod : Bytes → Option D)

/-- One round of the loop, for the arguments that are left; `stod` is `std::stod`, with `none` for
an exception. -/
def round (arg : Args D) (progArgs : List Bytes) : Except Failure (Args D × List Bytes) :=
  match readFlag (utf8 "daemon") progArgs with
  | some rest => .ok ({ arg with daemon := true }, rest)
  | none =>
      match readValue (utf8 "path") progArgs with
      | .error failure => .error failure
      | .ok (some (value, rest)) => .ok ({ arg with path := value }, rest)
      | .ok none =>
          match readValue (utf8 "latency") progArgs with
          | .error failure => .error failure
          | .ok (some (value, rest)) =>
              match stod value with
              | none => .error .uncaught
              | some latency => .ok ({ arg with latency }, rest)
          | .ok none =>
              match readTargetHost progArgs with
              | some (value, rest) => .ok ({ arg with userHost := value }, rest)
              | none =>
                  .error (.exit (utf8 "invalid argument: '" ++ progArgs.headD [] ++ utf8 "'"))

/-- The check after the loop. -/
def finish (arg : Args D) : Except Failure (Args D) :=
  if !arg.daemon && !arg.sequencer && arg.userHost.isEmpty then
    .error (.exit (utf8 "missing user@hostname argument"))
  else .ok arg

theorem length_readFlag {exp : Bytes} {progArgs rest : List Bytes}
    (read : readFlag exp progArgs = some rest) : rest.length < progArgs.length := by
  cases progArgs with
  | nil => cases read
  | cons arg others =>
      rw [readFlag] at read
      split at read
      · cases read
        simp
      · cases read

theorem length_readValue {exp value : Bytes} {progArgs rest : List Bytes}
    (read : readValue exp progArgs = .ok (some (value, rest))) : rest.length < progArgs.length := by
  unfold readValue at read
  split at read
  · cases read
  · cases read
  · rename_i flag
    cases read
    have := length_readFlag flag
    simp only [List.length_cons] at this
    omega

/-- A round takes at least one argument. -/
theorem length_round {arg arg' : Args D} {progArgs rest : List Bytes}
    (read : round stod arg progArgs = .ok (arg', rest)) : rest.length < progArgs.length := by
  unfold round at read
  split at read
  case h_1 flag =>
    cases read
    exact length_readFlag flag
  case h_2 =>
    split at read
    case h_1 => cases read
    case h_2 value =>
      cases read
      exact length_readValue value
    case h_3 =>
      split at read
      case h_1 => cases read
      case h_2 value =>
        split at read
        · cases read
        · cases read
          exact length_readValue value
      case h_3 =>
        split at read
        case h_1 host =>
          cases read
          cases progArgs with
          | nil => cases host
          | cons first others =>
              rw [readTargetHost] at host
              split at host
              · cases host
                simp
              · cases host
        case h_2 => cases read

/-- The loop, with the check after it. -/
def parseLoop (arg : Args D) (progArgs : List Bytes) : Except Failure (Args D) :=
  match progArgs with
  | [] => finish arg
  | first :: others =>
      match _read : round stod arg (first :: others) with
      | .error failure => .error failure
      | .ok (arg', rest) => parseLoop arg' rest
termination_by progArgs.length
decreasing_by exact length_round stod _read

/-- `Args::parse`; the first argument is the path of the program. -/
def parse (zero : D) (argv : List Bytes) : Except Failure (Args D) :=
  parseLoop stod { latency := zero } argv.tail

end Parse

/-! ## The grammar -/

/-- The argument is this name after one or two dashes. -/
def IsFlag (name arg : Bytes) : Prop := arg = utf8 "-" ++ name ∨ arg = utf8 "--" ++ name

/-- The items of a command line. -/
inductive Item where
  | daemon (flag : Bytes)
  | path (flag value : Bytes)
  | latency (flag value : Bytes)
  | host (name : Bytes)
deriving DecidableEq, Repr

namespace Item

/-- The arguments that an item consists of. -/
def words : Item → List Bytes
  | .daemon flag => [flag]
  | .path flag value => [flag, value]
  | .latency flag value => [flag, value]
  | .host name => [name]

def pathValue : Item → Option Bytes
  | .path _ value => some value
  | _ => none

def latencyValue : Item → Option Bytes
  | .latency _ value => some value
  | _ => none

def hostValue : Item → Option Bytes
  | .host name => some name
  | _ => none

def isDaemon : Item → Bool
  | .daemon _ => true
  | _ => false

section Double

variable {D : Type} (stod : Bytes → Option D)

/-- The item is one of the grammar. -/
def Ok : Item → Prop
  | .daemon flag => IsFlag (utf8 "daemon") flag
  | .path flag _ => IsFlag (utf8 "path") flag
  | .latency flag value => IsFlag (utf8 "latency") flag ∧ (stod value).isSome
  | .host name => (∀ flag ∈ [utf8 "daemon", utf8 "path", utf8 "latency"], ¬ IsFlag flag name) ∧
      name.count 64 = 1

/-- What the parser does with an item. -/
def apply (arg : Args D) : Item → Args D
  | .daemon _ => { arg with daemon := true }
  | .path _ value => { arg with path := value }
  | .latency _ value => { arg with latency := (stod value).getD arg.latency }
  | .host name => { arg with userHost := name }

end Double

end Item

section Grammar

variable {D : Type} (stod : Bytes → Option D)

/-- The arguments are the concatenation of these items. -/
structure Spells (items : List Item) (args : List Bytes) : Prop where
  ok : ∀ item ∈ items, item.Ok stod
  words : args = items.flatMap Item.words

/-- There is a daemon flag or a host. -/
def Complete (items : List Item) : Prop :=
  ∃ item ∈ items, item.isDaemon = true ∨ item.hostValue.isSome

/-- The result for these items: a value is that of its last occurrence, or the default. -/
def summary (zero : D) (items : List Item) : Args D where
  daemon := items.any Item.isDaemon
  path := (items.filterMap Item.pathValue).getLast?.getD []
  latency := ((items.filterMap Item.latencyValue).getLast?.bind stod).getD zero
  userHost := (items.filterMap Item.hostValue).getLast?.getD []

/-- The parser returns exactly on the complete concatenations of items, with the result for them,
and ends in `exit(1)` on everything else. -/
structure GrammarOk (zero : D) (argv : List Bytes) : Prop where
  returns : ∀ result, parse stod zero argv = .ok result ↔
    ∃ items, Spells stod items argv.tail ∧ Complete items ∧ result = summary stod zero items
  exits : (¬ ∃ items, Spells stod items argv.tail ∧ Complete items) →
    ∃ message, parse stod zero argv = .error (.exit message)

/-- After some items comes a latency that `std::stod` rejects. -/
def Rejected (args : List Bytes) : Prop :=
  ∃ items flag value rest, Spells stod items (items.flatMap Item.words) ∧
    args = items.flatMap Item.words ++ flag :: value :: rest ∧ IsFlag (utf8 "latency") flag ∧
      stod value = none

end Grammar

/-! ## One round -/

/-- A name that does not start with a dash is found after one or two of them. -/
theorem stripDash_eq_some_iff {name arg : Bytes} (plain : name.head? ≠ some 45) :
    stripDash arg = some name ↔ IsFlag name arg := by
  have dash : utf8 "-" = [45] := by decide
  have dashes : utf8 "--" = [45, 45] := by decide
  rw [stripDash, IsFlag, dash, dashes]
  cases arg with
  | nil => simp
  | cons first arg =>
      by_cases one : first = 45
      · subst one
        cases arg with
        | nil =>
            cases name <;> simp
        | cons second arg =>
            by_cases two : second = 45
            · subst two
              cases name with
              | nil => simp
              | cons letter name =>
                  have other : letter ≠ 45 := by simpa using plain
                  simp [other.symm]
            · simp [Ne.symm two, two]
      · simp [Ne.symm one, one]

section Round

variable {D : Type} {stod : Bytes → Option D}

theorem readFlag_cons {exp first : Bytes} {rest : List Bytes} (same : stripDash first = some exp) :
    readFlag exp (first :: rest) = some rest :=
  if_pos same

theorem readFlag_cons_of_ne {exp first : Bytes} {rest : List Bytes}
    (other : stripDash first ≠ some exp) : readFlag exp (first :: rest) = none :=
  if_neg other

theorem readValue_cons {exp first value : Bytes} {rest : List Bytes}
    (same : stripDash first = some exp) :
    readValue exp (first :: value :: rest) = .ok (some (value, rest)) := by
  rw [readValue, readFlag_cons same]

/-- A flag that comes last has no value. -/
theorem readValue_last {exp first : Bytes} (same : stripDash first = some exp) :
    readValue exp [first] =
      .error (.exit (utf8 "flag --" ++ exp ++ utf8 " requires a value")) := by
  rw [readValue, readFlag_cons same]

theorem readValue_cons_of_ne {exp first : Bytes} {rest : List Bytes}
    (other : stripDash first ≠ some exp) : readValue exp (first :: rest) = .ok none := by
  rw [readValue, readFlag_cons_of_ne other]

theorem isFlag_daemon {flag : Bytes} :
    IsFlag (utf8 "daemon") flag ↔ stripDash flag = some (utf8 "daemon") :=
  (stripDash_eq_some_iff (by decide)).symm

theorem isFlag_path {flag : Bytes} :
    IsFlag (utf8 "path") flag ↔ stripDash flag = some (utf8 "path") :=
  (stripDash_eq_some_iff (by decide)).symm

theorem isFlag_latency {flag : Bytes} :
    IsFlag (utf8 "latency") flag ↔ stripDash flag = some (utf8 "latency") :=
  (stripDash_eq_some_iff (by decide)).symm

/-- A name that was read is no other one. -/
theorem strip_ne {first exp other : Bytes} (same : stripDash first = some exp)
    (apart : exp ≠ other) : stripDash first ≠ some other := by
  rw [same]
  exact fun both => apart (Option.some.inj both)

/-- A round reads an item that stands in front. -/
theorem round_item {item : Item} (ok : item.Ok stod) (arg : Args D) (rest : List Bytes) :
    round stod arg (item.words ++ rest) = .ok (item.apply stod arg, rest) := by
  cases item with
  | daemon flag => simp only [Item.words, List.singleton_append, round,
      readFlag_cons (isFlag_daemon.1 ok), Item.apply]
  | path flag value =>
      have same := isFlag_path.1 ok
      simp only [Item.words, List.cons_append, List.nil_append, round,
        readFlag_cons_of_ne (strip_ne same (by decide : _ ≠ utf8 "daemon")), readValue_cons same,
        Item.apply]
  | latency flag value =>
      obtain ⟨flagged, accepted⟩ := ok
      have same := isFlag_latency.1 flagged
      obtain ⟨latency, accepted⟩ := Option.isSome_iff_exists.1 accepted
      simp only [Item.words, List.cons_append, List.nil_append, round,
        readFlag_cons_of_ne (strip_ne same (by decide : _ ≠ utf8 "daemon")),
        readValue_cons_of_ne (strip_ne same (by decide : _ ≠ utf8 "path")), readValue_cons same,
        accepted, Item.apply, Option.getD_some]
  | host name =>
      obtain ⟨other, once⟩ := ok
      have daemon := mt isFlag_daemon.2 (other _ (by simp))
      have path := mt isFlag_path.2 (other _ (by simp))
      have latency := mt isFlag_latency.2 (other _ (by simp))
      simp only [Item.words, List.singleton_append, round, readFlag_cons_of_ne daemon,
        readValue_cons_of_ne path, readValue_cons_of_ne latency, readTargetHost, if_pos once,
        Item.apply]

/-- A round reads an item, or ends the program cleanly, or has come to a latency that is
rejected. -/
theorem round_cases (stod : Bytes → Option D) (arg : Args D) (first : Bytes) (others : List Bytes) :
    (∃ (item : Item) (rest : List Bytes), item.Ok stod ∧ first :: others = item.words ++ rest) ∨
      (∃ message, round stod arg (first :: others) = .error (.exit message)) ∨
        ∃ value rest, IsFlag (utf8 "latency") first ∧ others = value :: rest ∧ stod value = none ∧
          round stod arg (first :: others) = .error .uncaught := by
  by_cases daemon : stripDash first = some (utf8 "daemon")
  · exact .inl ⟨.daemon first, others, isFlag_daemon.2 daemon, rfl⟩
  by_cases path : stripDash first = some (utf8 "path")
  · cases others with
    | nil =>
        refine .inr (.inl ⟨utf8 "flag --" ++ utf8 "path" ++ utf8 " requires a value", ?_⟩)
        simp only [round, readFlag_cons_of_ne daemon, readValue_last path]
    | cons value rest => exact .inl ⟨.path first value, rest, isFlag_path.2 path, rfl⟩
  by_cases latency : stripDash first = some (utf8 "latency")
  · cases others with
    | nil =>
        refine .inr (.inl ⟨utf8 "flag --" ++ utf8 "latency" ++ utf8 " requires a value", ?_⟩)
        simp only [round, readFlag_cons_of_ne daemon, readValue_cons_of_ne path,
          readValue_last latency]
    | cons value rest =>
        cases number : stod value with
        | some latency' =>
            exact .inl ⟨.latency first value, rest,
              ⟨isFlag_latency.2 latency, by rw [number]; rfl⟩, rfl⟩
        | none =>
            refine .inr (.inr ⟨value, rest, isFlag_latency.2 latency, rfl, number, ?_⟩)
            simp only [round, readFlag_cons_of_ne daemon, readValue_cons_of_ne path,
              readValue_cons latency, number]
  by_cases once : first.count 64 = 1
  · refine .inl ⟨.host first, others, ⟨?_, once⟩, rfl⟩
    simp only [List.forall_mem_cons, isFlag_daemon, isFlag_path, isFlag_latency]
    exact ⟨daemon, path, latency, by simp⟩
  · refine .inr (.inl ⟨utf8 "invalid argument: '" ++ first ++ utf8 "'", ?_⟩)
    simp only [round, readFlag_cons_of_ne daemon, readValue_cons_of_ne path,
      readValue_cons_of_ne latency, readTargetHost, if_neg once, List.headD_cons]

end Round

/-! ## All rounds -/

section Rounds

variable {D : Type} {stod : Bytes → Option D} {arg arg' : Args D}

theorem parseLoop_of_ok {args rest : List Bytes} (read : round stod arg args = .ok (arg', rest)) :
    parseLoop stod arg args = parseLoop stod arg' rest := by
  cases args with
  | nil => exact absurd (length_round stod read) (Nat.not_lt_zero _)
  | cons first others =>
      rw [parseLoop]
      split
      · rename_i failed
        cases failed.symm.trans read
      · rename_i read'
        cases read'.symm.trans read
        rfl

theorem parseLoop_of_error {first : Bytes} {others : List Bytes} {failure : Failure}
    (failed : round stod arg (first :: others) = .error failure) :
    parseLoop stod arg (first :: others) = .error failure := by
  rw [parseLoop]
  split
  · rename_i failed'
    cases failed'.symm.trans failed
    rfl
  · rename_i read
    cases read.symm.trans failed

/-- The loop reads the items in front one after the other. -/
theorem parseLoop_items {items : List Item} (ok : ∀ item ∈ items, item.Ok stod) (arg : Args D)
    (rest : List Bytes) :
    parseLoop stod arg (items.flatMap Item.words ++ rest) =
      parseLoop stod (items.foldl (Item.apply stod) arg) rest := by
  induction items generalizing arg with
  | nil => rfl
  | cons item items ih =>
      have first := round_item (ok item List.mem_cons_self) arg
        (items.flatMap Item.words ++ rest)
      rw [List.flatMap_cons, List.append_assoc, parseLoop_of_ok first,
        ih fun other among => ok other (List.mem_cons_of_mem _ among), List.foldl_cons]

/-- A command line is made of items, or ends the program cleanly, or has a latency that is
rejected. -/
theorem parseLoop_cases (stod : Bytes → Option D) (args : List Bytes) (arg : Args D) :
    (∃ items, Spells stod items args) ∨
      (∃ message, parseLoop stod arg args = .error (.exit message)) ∨ Rejected stod args := by
  induction length : args.length using Nat.strongRecOn generalizing args arg with
  | ind length ih =>
      cases args with
      | nil => exact .inl ⟨[], by simp, rfl⟩
      | cons first others =>
          rcases round_cases stod arg first others with
            ⟨item, rest, ok, words⟩ | ⟨message, failed⟩ | ⟨value, rest, flag, rfl, bad, -⟩
          · have read := round_item ok arg rest
            rw [← words] at read
            have shorter := length_round stod read
            rw [parseLoop_of_ok read]
            rcases ih _ (length ▸ shorter) rest (item.apply stod arg) rfl with
              ⟨items, spells⟩ | clean | ⟨items, flag, value, rest', spells, rfl, flagged, bad⟩
            · refine .inl ⟨item :: items, List.forall_mem_cons.2 ⟨ok, spells.ok⟩, ?_⟩
              rw [words, List.flatMap_cons, ← spells.words]
            · exact .inr (.inl clean)
            · refine .inr (.inr ⟨item :: items, flag, value, rest', ?_, ?_, flagged, bad⟩)
              · exact ⟨List.forall_mem_cons.2 ⟨ok, spells.ok⟩, rfl⟩
              · rw [words, List.flatMap_cons, List.append_assoc]
          · exact .inr (.inl ⟨message, parseLoop_of_error failed⟩)
          · exact .inr (.inr ⟨[], first, value, rest, ⟨by simp, rfl⟩, rfl, flag, bad⟩)

/-- A latency that is rejected leaves with an exception. -/
theorem parseLoop_rejected {args : List Bytes} (rejected : Rejected stod args) (arg : Args D) :
    parseLoop stod arg args = .error .uncaught := by
  obtain ⟨items, flag, value, rest, spells, rfl, flagged, bad⟩ := rejected
  rw [parseLoop_items spells.ok]
  apply parseLoop_of_error
  have same := isFlag_latency.1 flagged
  simp only [round, readFlag_cons_of_ne (strip_ne same (by decide : _ ≠ utf8 "daemon")),
    readValue_cons_of_ne (strip_ne same (by decide : _ ≠ utf8 "path")), readValue_cons same, bad]

end Rounds

/-! ## The result -/

section Result

variable {D : Type} {stod : Bytes → Option D} {items : List Item}

/-- The items leave the values of their last occurrences. -/
theorem foldl_apply (ok : ∀ item ∈ items, item.Ok stod) (zero : D) :
    items.foldl (Item.apply stod) { latency := zero } = summary stod zero items := by
  induction items using List.reverseRecOn with
  | nil => rfl
  | append_singleton items item ih =>
      obtain ⟨before, last⟩ := List.forall_mem_append.1 ok
      rw [List.foldl_append, ih before, List.foldl_cons, List.foldl_nil]
      cases item with
      | latency flag value =>
          have own : Item.Ok stod (.latency flag value) := last _ List.mem_cons_self
          obtain ⟨latency, accepted⟩ := Option.isSome_iff_exists.1 own.2
          simp [Item.apply, summary, Item.isDaemon, Item.pathValue, Item.latencyValue,
            Item.hostValue, accepted]
      | _ =>
          simp [Item.apply, summary, Item.isDaemon, Item.pathValue, Item.latencyValue,
            Item.hostValue]

/-- There is a last host exactly when there is one at all. -/
theorem userHost_isEmpty_iff (ok : ∀ item ∈ items, item.Ok stod) (zero : D) :
    (summary stod zero items).userHost.isEmpty = true ↔
      ∀ item ∈ items, item.hostValue = none := by
  rw [← List.filterMap_eq_nil_iff, ← List.getLast?_eq_none_iff]
  cases last : (items.filterMap Item.hostValue).getLast? with
  | none => simp [summary, last]
  | some name =>
      obtain ⟨item, among, value⟩ := List.mem_filterMap.1 (List.mem_of_getLast? last)
      have once : name.count 64 = 1 := by
        cases item with
        | host _ =>
            cases value
            exact (ok _ among).2
        | _ => cases value
      have some_ : name ≠ [] := by
        rintro rfl
        simp at once
      simp [summary, last, some_]

/-- The check after the loop asks for a daemon flag or a host. -/
theorem finish_summary (ok : ∀ item ∈ items, item.Ok stod) (zero : D) :
    (Complete items → finish (summary stod zero items) = .ok (summary stod zero items)) ∧
      (¬ Complete items →
        ∃ message, finish (summary stod zero items) = .error (.exit message)) := by
  have check : (!(summary stod zero items).daemon && !(summary stod zero items).sequencer &&
      (summary stod zero items).userHost.isEmpty) = true ↔ ¬ Complete items := by
    have sequencer : (summary stod zero items).sequencer = false := rfl
    have daemon : (summary stod zero items).daemon = items.any Item.isDaemon := rfl
    simp only [Bool.and_eq_true, userHost_isEmpty_iff ok, sequencer, daemon, Complete,
      Bool.not_eq_true', List.any_eq_false, Bool.not_false, and_true, not_exists, not_and, not_or,
      Option.not_isSome_iff_eq_none]
    exact forall₂_and.symm
  constructor
  · intro complete
    rw [finish, if_neg fun missing => check.1 missing complete]
  · intro incomplete
    rw [finish, if_pos (check.2 incomplete)]
    exact ⟨_, rfl⟩

/-- What the parser makes of a list of items. -/
theorem parse_of_spells {argv : List Bytes} (spells : Spells stod items argv.tail) (zero : D) :
    parse stod zero argv = finish (summary stod zero items) := by
  have whole := parseLoop_items spells.ok { latency := zero } []
  rw [List.append_nil, ← spells.words, foldl_apply spells.ok] at whole
  rw [parse, whole, parseLoop]

/-- **The parser returns exactly on the complete concatenations of items.** -/
theorem parse_returns_iff {zero : D} {argv : List Bytes} {result : Args D} :
    parse stod zero argv = .ok result ↔
      ∃ items, Spells stod items argv.tail ∧ Complete items ∧ result = summary stod zero items := by
  constructor
  · intro returned
    rcases parseLoop_cases stod argv.tail { latency := zero } with
      ⟨items, spells⟩ | ⟨message, exits⟩ | rejected
    · rw [parse_of_spells spells] at returned
      by_cases complete : Complete items
      · rw [(finish_summary spells.ok zero).1 complete] at returned
        exact ⟨items, spells, complete, (Except.ok.inj returned).symm⟩
      · obtain ⟨message, exits⟩ := (finish_summary spells.ok zero).2 complete
        cases returned.symm.trans exits
    · cases returned.symm.trans exits
    · cases returned.symm.trans (parseLoop_rejected rejected _)
  · rintro ⟨items, spells, complete, rfl⟩
    rw [parse_of_spells spells, (finish_summary spells.ok zero).1 complete]

/-- In a grammar that is followed nothing leaves with an exception. -/
theorem GrammarOk.caught {zero : D} {argv : List Bytes} (ok : GrammarOk stod zero argv) :
    parse stod zero argv ≠ .error .uncaught := by
  intro uncaught
  have outside : ¬ ∃ items, Spells stod items argv.tail ∧ Complete items := by
    rintro ⟨items, spells, complete⟩
    have returned := (ok.returns _).2 ⟨items, spells, complete, rfl⟩
    cases uncaught.symm.trans returned
  obtain ⟨message, exits⟩ := ok.exits outside
  cases uncaught.symm.trans exits

/-- **The parser follows the grammar exactly when it does not come to a latency that `std::stod`
rejects.** -/
theorem parse_iff (stod : Bytes → Option D) (zero : D) (program : Bytes) (args : List Bytes) :
    GrammarOk stod zero (program :: args) ↔ ¬ Rejected stod args := by
  constructor
  · intro ok rejected
    exact ok.caught (parseLoop_rejected rejected _)
  · intro accepted
    refine ⟨fun result => parse_returns_iff, fun outside => ?_⟩
    rcases parseLoop_cases stod args { latency := zero } with
      ⟨items, spells⟩ | exits | rejected
    · have incomplete : ¬ Complete items := fun complete => outside ⟨items, spells, complete⟩
      obtain ⟨message, exits⟩ := (finish_summary spells.ok zero).2 incomplete
      exact ⟨message, (parse_of_spells spells zero).trans exits⟩
    · exact exits
    · exact absurd rejected accepted

/-- A number without sign, as far as its digits go. -/
def sampleStod (value : Bytes) : Option ℕ :=
  match value.takeWhile fun c => 48 ≤ c && c ≤ 57 with
  | [] => none
  | digits => some (digits.foldl (fun n c => 10 * n + (c.toNat - 48)) 0)

/-- The command `enu -latency soon u@h` leaves with an exception. -/
theorem bad_latency_uncaught :
    sampleStod (utf8 "soon") = none ∧
      parse sampleStod 0 [utf8 "enu", utf8 "-latency", utf8 "soon", utf8 "u@h"] =
        .error .uncaught ∧
      ¬ GrammarOk sampleStod 0 [utf8 "enu", utf8 "-latency", utf8 "soon", utf8 "u@h"] := by
  have flagged : IsFlag (utf8 "latency") (utf8 "-latency") := .inl (by decide)
  have rejected : Rejected sampleStod [utf8 "-latency", utf8 "soon", utf8 "u@h"] :=
    ⟨[], utf8 "-latency", utf8 "soon", [utf8 "u@h"], ⟨by simp, rfl⟩, rfl, flagged, by decide⟩
  have uncaught : parse sampleStod 0 [utf8 "enu", utf8 "-latency", utf8 "soon", utf8 "u@h"] =
      .error .uncaught := parseLoop_rejected rejected _
  exact ⟨by decide, uncaught, fun ok => ok.caught uncaught⟩

end Result

end Enuwatch.ArgParser

import Enuwatch.Daemon.Turns

/-!
# A wake-up that waits

A wake-up that starts between two messages reads until the message is complete, and what it has
read so far says what it is doing. It waits for the rest of a header, of a path or of the contents
of a file (`Waiting`), or it has come to its end: a directory was made, a file was published, or
the daemon could not open the transfer (`Ending`). While it waits it is blocked
(`Waiting.blocked`), at its end it has used what it was given (`Ending.used`), and a block that it
asked for leads from waiting to waiting or to the end (`Waiting.read`).
-/

set_option autoImplicit false

namespace Enuwatch.Net

open Enuwatch.Lib

/-- Answers that hand over these blocks. -/
def handing (blocks : List Bytes) : List SysRead := blocks.map .data

/-- Blocks that a `read` can hand over. -/
def Cuts (blocks : List Bytes) : Prop := ∀ b ∈ blocks, b ≠ [] ∧ b.length ≤ maxRwSize

theorem handing_append (first second : List Bytes) :
    handing (first ++ second) = handing first ++ handing second := List.map_append

theorem Cuts.append {first second : List Bytes} (one : Cuts first) (other : Cuts second) :
    Cuts (first ++ second) := fun b among =>
  (List.mem_append.1 among).elim (one b) (other b)

theorem incoming_handing (blocks : List Bytes) : incoming (handing blocks) = blocks.flatten := by
  induction blocks with
  | nil => rfl
  | cons b blocks ih =>
      rw [List.flatten_cons, ← ih]
      rfl

/-- Blocks that are all that is asked for are taken in. -/
theorem readLoop_handing {blocks : List Bytes} (cuts : Cuts blocks) {len off : ℕ}
    (rest : List SysRead) (full : off + blocks.flatten.length = len) :
    readLoop len off (handing blocks ++ rest) = some ⟨⟨.ok, len⟩, blocks.flatten, rest⟩ := by
  induction blocks generalizing off with
  | nil =>
      obtain rfl : off = len := by simpa using full
      cases rest <;> simp [handing, readLoop]
  | cons b blocks ih =>
      obtain ⟨⟨some_, small⟩, later⟩ := List.forall_mem_cons.1 cuts
      have positive := List.length_pos_iff.2 some_
      rw [List.flatten_cons, List.length_append] at full
      have more : off < len := by omega
      have fits : b ≠ [] ∧ b.length ≤ min maxRwSize (len - off) := ⟨some_, by omega⟩
      have step := ih later (show off + b.length + blocks.flatten.length = len by omega)
      simp only [handing, List.map_cons, List.cons_append, readLoop, if_pos more, if_pos fits]
      rw [handing] at step
      rw [step]
      rfl

/-- Blocks that are less leave the loop waiting. -/
theorem readLoop_short {blocks : List Bytes} (cuts : Cuts blocks) {len off : ℕ}
    (short : off + blocks.flatten.length < len) : readLoop len off (handing blocks) = none := by
  induction blocks generalizing off with
  | nil =>
      have more : off < len := by simpa using short
      simp [handing, readLoop, more]
  | cons b blocks ih =>
      obtain ⟨⟨some_, small⟩, later⟩ := List.forall_mem_cons.1 cuts
      rw [List.flatten_cons, List.length_append] at short
      have more : off < len := by omega
      have fits : b ≠ [] ∧ b.length ≤ min maxRwSize (len - off) := ⟨some_, by omega⟩
      have step := ih later (show off + b.length + blocks.flatten.length < len by omega)
      simp only [handing, List.map_cons, readLoop, if_pos more, if_pos fits]
      rw [handing] at step
      rw [step]
      rfl

end Enuwatch.Net

namespace Enuwatch.Daemon

open Enuwatch.Lib Enuwatch.Net

/-! ## The stages of a wake-up -/

/-- The calls that open a transfer succeed. -/
def Opens (ans : Answers) (fs : Fs) (size : ℕ) : Prop :=
  ans.mkstemp = true ∧ fs.CanCreate (locate fs.cwd ans.temp) ∧
    ans.ftruncate = true ∧ size < 2 ^ 63 ∧ (0 < size → ans.mmap = true)

section Stages

variable {k : ℕ} {ans : Answers} {st : ConnectionState} {w : World} {blocks : List Bytes}
  {rest : List SysRead} {Q : ConnectionState → World → Prop} {E : Exit → World → Prop}

/-- `advance` that gets all it asks for. -/
theorem wp_advance_whole {Q : Progress × ConnectionState → World → Prop} (sane : st.Sane)
    (cuts : Cuts blocks) (answers : w.answers = handing blocks ++ rest)
    (full : st.progress + blocks.flatten.length = st.goal) (target : Target)
    (done : Q (.done, st.stored target blocks.flatten)
      (w.receive k blocks.flatten rest (target.storeFs blocks.flatten st w.fs))) :
    wp (advance k target st) Q E w := by
  have bound := sane.bound
  have read : readPartial (st.goal - st.progress) w.answers =
      some ⟨⟨.ok, st.goal - st.progress⟩, blocks.flatten, rest⟩ := by
    rw [answers]
    exact readLoop_handing cuts rest (by omega)
  have sum : sizeAdd st.progress (st.goal - st.progress) = st.progress + blocks.flatten.length := by
    rw [sizeAdd_of_lt (by omega)]
    omega
  have reached : st.progress + blocks.flatten.length =
      (target.storeState blocks.flatten st).goal := by rw [storeState_goal, full]
  simp only [advance, wp_bind, wp_get]
  rw [sizeSub_of_le sane.ordered sane.bound, read]
  simp only [wp_bind, wp_set, wp_pure, storeState_progress, sum, if_pos reached]
  exact done

/-- `advance` that gets less. -/
theorem wp_advance_short {Q : Progress × ConnectionState → World → Prop} (sane : st.Sane)
    (cuts : Cuts blocks) (answers : w.answers = handing blocks)
    (short : st.progress + blocks.flatten.length < st.goal) (target : Target)
    (blocked : E .blocked w) : wp (advance k target st) Q E w := by
  have read : readPartial (st.goal - st.progress) w.answers = none := by
    rw [answers]
    exact readLoop_short cuts (by omega)
  simp only [advance, wp_bind, wp_get]
  rw [sizeSub_of_le sane.ordered sane.bound, read]
  exact blocked

/-- What is in the buffer while a header is collected. -/
theorem Represents.header_buf {fs : Fs} {p : Phase} {got : Bytes} (state : Represents fs st p)
    (same : p = .header got) (kind : st.kind = .headerP1) :
    st.buf = got ++ zeros (DataMessage.size - got.length) := by
  cases state with
  | connected other => simp [kind] at other
  | header _ _ _ _ buf =>
      cases same
      exact buf
  | path other => simp [kind] at other
  | payload other => simp [kind] at other

section Header

variable (tracks : Tracks w k st (.header [])) (kind : st.kind = .connected)

include tracks kind

theorem armed_header : (arm st).Sane ∧ (arm st).kind = .headerP1 ∧ (arm st).progress = 0 ∧
    (arm st).goal = DataMessage.size ∧ Tracks w k (arm st) (.header []) := by
  obtain ⟨-, sane, -, -⟩ := chain_arm (k := k) (w := w) .refl tracks.state.sane
  have progress := tracks.state.sane.connected kind
  have armed : Tracks w k (arm st) (.header []) := by simpa only [arm, kind] using tracks.arm kind
  refine ⟨sane, ?_, ?_, ?_, armed⟩ <;> simp [arm, kind, progress]

/-- A whole header is followed by its path. -/
theorem wp_headerP1_whole (cuts : Cuts blocks) (whole : blocks.flatten.length = DataMessage.size)
    (answers : w.answers = handing blocks ++ rest)
    (next : ∀ st' w', st'.kind = .headerP2 → Tracks w' k st' (.path blocks.flatten []) →
      w'.answers = rest → w'.fs = w.fs → Q st' w') :
    wp (headerP1 k (arm st)) Q E w := by
  obtain ⟨sane, armed, progress, goal, tracks⟩ := armed_header tracks kind
  have full : (arm st).progress + blocks.flatten.length = (arm st).goal := by
    rw [progress, goal, whole, Nat.zero_add]
  simp only [headerP1, armed, wp_bind]
  refine wp_advance_whole sane cuts answers full .buf ?_
  let st' := (arm st).stored .buf blocks.flatten
  have read : Tracks (w.receive k blocks.flatten rest w.fs) k st' (.header blocks.flatten) := by
    simpa [armed, targetOf, Phase.extend, Target.storeFs] using
      tracks.read (by simp [armed]) rest (by omega)
  have sane' : st'.Sane := sane.stored (by simp [armed]) (by omega)
  have awaiting : sizeAdd st'.goal (DataMessage.decode st'.buf).pathLen.toNat =
      st'.goal + st'.msg.pathLen.toNat := sizeAdd_of_lt (sane'.awaitPath armed).bound
  rw [wp_pure, show ((arm st).stored .buf blocks.flatten) = st' from rfl, awaiting]
  obtain ⟨hdr, awaits⟩ := read.header armed full
  refine next st'.awaitPath _ rfl ?_ rfl rfl
  -- The buffer still begins with the header, so that is the one to be followed.
  have same : hdr = blocks.flatten := by
    have before : st'.buf = blocks.flatten := by
      simpa [whole] using read.state.header_buf rfl armed
    cases awaits.state with
    | path _ whole' _ _ _ buf =>
        have front := congrArg (List.take DataMessage.size) buf
        simp only [ConnectionState.awaitPath, before, List.append_nil] at front
        have grown := resize_grow blocks.flatten (st'.msg.pathLen.toNat)
        have goal' : st'.goal = blocks.flatten.length := by
          rw [whole]
          exact goal
        rw [goal', grown, List.take_left' whole, List.take_left' whole'] at front
        exact front.symm
  rwa [same] at awaits

theorem wp_headerP1_short (cuts : Cuts blocks) (short : blocks.flatten.length < DataMessage.size)
    (answers : w.answers = handing blocks) (blocked : E .blocked w) :
    wp (headerP1 k (arm st)) Q E w := by
  obtain ⟨sane, armed, progress, goal, -⟩ := armed_header tracks kind
  simp only [headerP1, armed, wp_bind]
  exact wp_advance_short sane cuts answers (by omega) .buf blocked

end Header

/-- Opening a transfer uses no answer to a `read`. -/
theorem wp_openTransfer_cases (opened : Opens ans w.fs st.msg.fsize.toNat → ∀ st' w',
      st'.kind = .receiving → st'.progress = 0 → st'.goal = st.msg.fsize.toNat →
      w'.answers = w.answers → Q st' w')
    (refused : ¬ Opens ans w.fs st.msg.fsize.toNat → ∀ w', w'.answers = w.answers → E .fatal w') :
    wp (openTransfer k st.msg ans st.parsed) Q E w := by
  have positive : st.msg.fsize > 0 ↔ 0 < st.msg.fsize.toNat := by
    simp [UInt64.lt_iff_toNat_lt]
  simp only [openTransfer, createAnonfile, wp_bind, wp_get]
  refine wp_issue (fun made => ?_) fun unmade => refused (fun ok => ?_) _ rfl
  · obtain ⟨mkstemp, free⟩ : ans.mkstemp = true ∧ w.fs.CanCreate _ := by simpa using made
    rw [wp_modify]
    refine wp_issue (fun cut => ?_) fun uncut => refused (fun ok => ?_) _ rfl
    · obtain ⟨ftruncate, small⟩ : ans.ftruncate = true ∧ _ := by simpa using cut
      rw [wp_modify, wp_pure]
      split
      · rename_i some_
        simp only [wp_bind]
        refine wp_issue (fun mapped => ?_) fun unmapped => refused (fun ok => ?_) _ rfl
        · exact opened ⟨mkstemp, free, ftruncate, small, fun _ => mapped⟩ _ _ rfl rfl rfl rfl
        · have mapped := ok.2.2.2.2 (positive.1 some_)
          exact absurd mapped (by simpa using unmapped)
      · rename_i none_
        exact opened ⟨mkstemp, free, ftruncate, small, fun some_ => absurd (positive.2 some_) none_⟩
          _ _ rfl rfl rfl rfl
    · obtain ⟨-, -, ftruncate, small, -⟩ := ok
      simp only [ftruncate, Bool.true_and, decide_eq_false_iff_not] at uncut
      exact uncut small
  · obtain ⟨mkstemp, free, -⟩ := ok
    have free : w.fs.CanCreate (w.locate ans.temp) := free
    simp [mkstemp, free] at unmade

section Path

variable {hdr : Bytes} (tracks : Tracks w k st (.path hdr []))

include tracks

theorem await_path : st.progress + pathLen hdr = st.goal := by
  cases tracks.state with
  | path _ _ _ progress goal => simp [progress, goal]

variable (kind : st.kind = .headerP2)

include kind

/-- A whole path is acted on. -/
theorem wp_headerP2_whole (cuts : Cuts blocks) (named : blocks.flatten.length = pathLen hdr)
    (answers : w.answers = handing blocks ++ rest)
    (opened : isRegular hdr → Opens ans w.fs (fsize hdr) → ∀ st' w', st'.kind = .receiving →
      st'.progress = 0 → st'.goal = fsize hdr → w'.answers = rest → Q st' w')
    (refused : isRegular hdr → ¬ Opens ans w.fs (fsize hdr) → ∀ w', w'.answers = rest → E .fatal w')
    (made : ¬ isRegular hdr → ∀ st' w', st'.kind = .connected → w'.answers = rest → Q st' w')
    (unmade : ¬ isRegular hdr → ∀ w', w'.answers = rest → E .fatal w') :
    wp (headerP2 k ans st) Q E w := by
  have goal := await_path tracks
  have full : st.progress + blocks.flatten.length = st.goal := by rw [named, goal]
  simp only [headerP2, kind, wp_bind]
  refine wp_advance_whole tracks.state.sane cuts answers full .buf ?_
  let st' := st.stored .buf blocks.flatten
  have read : Tracks (w.receive k blocks.flatten rest w.fs) k st' (.path hdr blocks.flatten) := by
    simpa [kind, targetOf, Phase.extend, Target.storeFs] using
      tracks.read (by simp [kind]) rest (by omega)
  obtain ⟨hdr', dest, same, -, -, -, msg, -⟩ := read.state.path_complete kind full
  obtain ⟨rfl, -⟩ : hdr = hdr' ∧ _ := by simpa using same
  rw [wp_ite]
  constructor
  · intro regular
    have regular' : isRegular hdr := by
      rw [isRegular, ← msg]
      exact regular
    have size : st'.msg.fsize.toNat = fsize hdr := by rw [msg]
    refine wp_openTransfer_cases ?_ ?_
    · rw [size]
      exact fun opens st'' w'' kind progress goal answers =>
        opened regular' opens st'' w'' kind progress goal answers
    · rw [size]
      exact fun closed w'' answers => refused regular' closed w'' answers
  · intro other
    have other' : ¬ isRegular hdr := by
      rw [isRegular, ← msg]
      exact other
    simp only [makeDirectory, ConnectionState.reset, wp_bind, wp_get]
    refine wp_issue (fun _ => ?_) fun _ => unmade other' _ rfl
    simp only [wp_modify, wp_pure]
    exact made other' _ _ rfl (by simp)

theorem wp_headerP2_short (cuts : Cuts blocks) (short : blocks.flatten.length < pathLen hdr)
    (answers : w.answers = handing blocks) (blocked : E .blocked w) :
    wp (headerP2 k ans st) Q E w := by
  have goal := await_path tracks
  simp only [headerP2, kind, wp_bind]
  exact wp_advance_short tracks.state.sane cuts answers (by omega) .buf blocked

end Path

section Payload

variable {size : ℕ} (kind : st.kind = .receiving) (progress : st.progress = 0)
  (goal : st.goal = size) (small : size < 2 ^ 64)

include kind progress goal small

theorem sane_receiving : st.Sane :=
  ⟨by omega, by omega, by simp [kind], by simp [kind]⟩

/-- Whole contents are published. -/
theorem wp_receiving_whole (cuts : Cuts blocks) (sized : blocks.flatten.length = size)
    (answers : w.answers = handing blocks ++ rest) (published : ∀ st' w', w'.answers = rest → Q st' w')
    (unpublished : ∀ w', w'.answers = rest → E .fatal w') : wp (receiving k ans st) Q E w := by
  have sane := sane_receiving kind progress goal small
  simp only [receiving, kind, wp_bind]
  refine wp_advance_whole sane cuts answers (by omega) .map ?_
  simp only [wp_bind, wp_get, moveAnonfile, ConnectionState.reset]
  refine wp_issue (fun _ => ?_) fun _ => unpublished _ rfl
  simp only [wp_modify, wp_pure]
  exact published _ _ (by simp)

theorem wp_receiving_short (cuts : Cuts blocks) (short : blocks.flatten.length < size)
    (answers : w.answers = handing blocks) (blocked : E .blocked w) :
    wp (receiving k ans st) Q E w := by
  have sane := sane_receiving kind progress goal small
  simp only [receiving, kind, wp_bind]
  exact wp_advance_short sane cuts answers (by omega) .map blocked

end Payload

end Stages

/-! ## What a wake-up has read so far -/

/-- A wake-up that has read these blocks waits for more. -/
inductive Waiting (opens : ℕ → Prop) : List Bytes → Prop
  | header {blocks : List Bytes} (cuts : Cuts blocks)
      (short : blocks.flatten.length < DataMessage.size) : Waiting opens blocks
  | path {hdr path : List Bytes} (cuts : Cuts hdr) (cuts' : Cuts path)
      (whole : hdr.flatten.length = DataMessage.size)
      (short : path.flatten.length < pathLen hdr.flatten) : Waiting opens (hdr ++ path)
  | payload {hdr path got : List Bytes} (cuts : Cuts hdr) (cuts' : Cuts path) (cuts'' : Cuts got)
      (whole : hdr.flatten.length = DataMessage.size)
      (named : path.flatten.length = pathLen hdr.flatten) (regular : isRegular hdr.flatten)
      (opened : opens (fsize hdr.flatten)) (short : got.flatten.length < fsize hdr.flatten) :
      Waiting opens (hdr ++ (path ++ got))

/-- A wake-up that has read these blocks is at its end. -/
inductive Ending (opens : ℕ → Prop) : List Bytes → Prop
  | directory {hdr path : List Bytes} (cuts : Cuts hdr) (cuts' : Cuts path)
      (whole : hdr.flatten.length = DataMessage.size)
      (named : path.flatten.length = pathLen hdr.flatten) (other : ¬ isRegular hdr.flatten) :
      Ending opens (hdr ++ path)
  | refused {hdr path : List Bytes} (cuts : Cuts hdr) (cuts' : Cuts path)
      (whole : hdr.flatten.length = DataMessage.size)
      (named : path.flatten.length = pathLen hdr.flatten) (regular : isRegular hdr.flatten)
      (closed : ¬ opens (fsize hdr.flatten)) : Ending opens (hdr ++ path)
  | file {hdr path got : List Bytes} (cuts : Cuts hdr) (cuts' : Cuts path) (cuts'' : Cuts got)
      (whole : hdr.flatten.length = DataMessage.size)
      (named : path.flatten.length = pathLen hdr.flatten) (regular : isRegular hdr.flatten)
      (opened : opens (fsize hdr.flatten)) (sized : got.flatten.length = fsize hdr.flatten) :
      Ending opens (hdr ++ (path ++ got))

section WakeUps

variable {k : ℕ} {ans : Answers} {st : ConnectionState} {w : World} {blocks : List Bytes}

/-- A wake-up that waits is blocked. -/
theorem Waiting.blocked (waiting : Waiting (Opens ans w.fs) blocks) (tracks : Tracks w k st (.header []))
    (kind : st.kind = .connected) (answers : w.answers = handing blocks) :
    wp (wakeUp k ans st) (fun _ _ => False) (fun e _ => e = .blocked) w := by
  simp only [wakeUp, wp_bind]
  cases waiting with
  | header cuts short => exact wp_headerP1_short tracks kind cuts short answers rfl
  | path cuts cuts' whole short =>
      rw [handing_append] at answers
      refine wp_headerP1_whole tracks kind cuts whole answers ?_
      intro st₁ w₁ kind₁ tracks₁ answers₁ _
      exact wp_headerP2_short tracks₁ kind₁ cuts' short answers₁ rfl
  | payload cuts cuts' cuts'' whole named regular opens short =>
      rw [handing_append, handing_append] at answers
      refine wp_headerP1_whole tracks kind cuts whole answers ?_
      intro st₁ w₁ kind₁ tracks₁ answers₁ same
      refine wp_headerP2_whole tracks₁ kind₁ cuts' named answers₁ ?_ ?_ ?_ ?_
      · intro _ _ st₂ w₂ kind₂ progress goal answers₂
        exact wp_receiving_short kind₂ progress goal (UInt64.toNat_lt _) cuts'' short answers₂ rfl
      · exact fun _ closed => absurd (same ▸ opens) closed
      · exact fun other => absurd regular other
      · exact fun other => absurd regular other

/-- A wake-up at its end has used what it was given. -/
theorem Ending.used (ending : Ending (Opens ans w.fs) blocks) (tracks : Tracks w k st (.header []))
    (kind : st.kind = .connected) (answers : w.answers = handing blocks) :
    wp (wakeUp k ans st) (fun _ w' => w'.answers = []) (fun e w' => e = .fatal ∧ w'.answers = [])
      w := by
  have last (blocks : List Bytes) : handing blocks = handing blocks ++ [] := (List.append_nil _).symm
  simp only [wakeUp, wp_bind]
  cases ending with
  | directory cuts cuts' whole named other =>
      rw [handing_append] at answers
      refine wp_headerP1_whole tracks kind cuts whole answers ?_
      intro st₁ w₁ kind₁ tracks₁ answers₁ same
      refine wp_headerP2_whole tracks₁ kind₁ cuts' named (answers₁.trans (last _)) ?_ ?_ ?_ ?_
      · exact fun regular => absurd regular other
      · exact fun regular => absurd regular other
      · intro _ st₂ w₂ kind₂ answers₂
        simp only [receiving, kind₂, wp_pure]
        exact answers₂
      · exact fun _ w₂ answers₂ => ⟨rfl, answers₂⟩
  | refused cuts cuts' whole named regular closed =>
      rw [handing_append] at answers
      refine wp_headerP1_whole tracks kind cuts whole answers ?_
      intro st₁ w₁ kind₁ tracks₁ answers₁ same
      refine wp_headerP2_whole tracks₁ kind₁ cuts' named (answers₁.trans (last _)) ?_ ?_ ?_ ?_
      · exact fun _ opens => absurd (same ▸ opens) closed
      · exact fun _ _ w₂ answers₂ => ⟨rfl, answers₂⟩
      · exact fun other => absurd regular other
      · exact fun other => absurd regular other
  | file cuts cuts' cuts'' whole named regular opens sized =>
      rw [handing_append, handing_append] at answers
      refine wp_headerP1_whole tracks kind cuts whole answers ?_
      intro st₁ w₁ kind₁ tracks₁ answers₁ same
      refine wp_headerP2_whole tracks₁ kind₁ cuts' named answers₁ ?_ ?_ ?_ ?_
      · intro _ _ st₂ w₂ kind₂ progress goal answers₂
        refine wp_receiving_whole kind₂ progress goal (UInt64.toNat_lt _) cuts'' sized
          (answers₂.trans (last _)) ?_ ?_
        · exact fun _ _ answers₃ => answers₃
        · exact fun _ answers₃ => ⟨rfl, answers₃⟩
      · exact fun _ closed => absurd (same ▸ opens) closed
      · exact fun other => absurd regular other
      · exact fun other => absurd regular other

end WakeUps

/-! ## One more block -/

section Phases

variable {hdr dest got : Bytes}

theorem phaseAfter_header (short : got.length < DataMessage.size) : phaseAfter got = .header got := by
  have fits : got.length ≤ (Phase.header []).need := short.le
  have stands := (StandsAt.of_phaseAfter []).extend fits
  refine (stands.of_need ?_).1
  simp only [Phase.extend, Phase.need, phaseAfter_nil, List.nil_append]
  omega

theorem standsAt_path (whole : hdr.length = DataMessage.size) (fits : got.length ≤ pathLen hdr) :
    StandsAt (hdr ++ got) (.path hdr got) [] := by
  have header : hdr.length ≤ (Phase.header []).need := whole.le
  have stands := ((StandsAt.of_phaseAfter []).extend header).header_complete whole
  exact stands.extend (show got.length ≤ (Phase.path hdr []).need by simpa [Phase.need] using fits)

theorem phaseAfter_path (whole : hdr.length = DataMessage.size) (short : got.length < pathLen hdr) :
    phaseAfter (hdr ++ got) = .path hdr got := by
  refine ((standsAt_path whole short.le).of_need ?_).1
  simp only [Phase.need]
  omega

theorem phaseAfter_payload (whole : hdr.length = DataMessage.size)
    (named : dest.length = pathLen hdr) (regular : isRegular hdr) (short : got.length < fsize hdr) :
    phaseAfter (hdr ++ dest ++ got) = .payload hdr dest got := by
  have stands := (standsAt_path whole named.le).path_regular named regular
  have fits : got.length ≤ (Phase.payload hdr dest []).need := by simpa [Phase.need] using short.le
  refine ((stands.extend fits).of_need ?_).1
  simp only [Phase.extend, Phase.need, List.nil_append]
  omega

end Phases

section Reads

variable {opens : ℕ → Prop} {blocks hdr path : List Bytes}

theorem cuts_nil : Cuts [] := by simp [Cuts]

/-- A whole path: the wake-up ends, or it waits for the contents. -/
theorem waiting_or_ending_of_path (cuts : Cuts hdr) (cuts' : Cuts path)
    (whole : hdr.flatten.length = DataMessage.size)
    (named : path.flatten.length = pathLen hdr.flatten) :
    Waiting opens (hdr ++ path) ∨ Ending opens (hdr ++ path) := by
  by_cases regular : isRegular hdr.flatten
  · by_cases opened : opens (fsize hdr.flatten)
    · rw [← List.append_nil path]
      obtain empty | positive := Nat.eq_zero_or_pos (fsize hdr.flatten)
      · exact .inr (.file cuts cuts' cuts_nil whole named regular opened (by simp [empty]))
      · exact .inl (.payload cuts cuts' cuts_nil whole named regular opened (by simpa using positive))
    · exact .inr (.refused cuts cuts' whole named regular opened)
  · exact .inr (.directory cuts cuts' whole named regular)

/-- A whole header: the wake-up goes on with the path. -/
theorem waiting_or_ending_of_header (cuts : Cuts hdr)
    (whole : hdr.flatten.length = DataMessage.size) :
    Waiting opens hdr ∨ Ending opens hdr := by
  rw [← List.append_nil hdr]
  obtain empty | positive := Nat.eq_zero_or_pos (pathLen hdr.flatten)
  · exact waiting_or_ending_of_path cuts cuts_nil whole (by simp [empty])
  · exact .inl (.path cuts cuts_nil whole (by simpa using positive))

/-- **A block that was asked for** leaves the wake-up waiting or brings it to its end. -/
theorem Waiting.read (waiting : Waiting opens blocks) {b : Bytes} (cut : Cuts [b])
    (asked : b.length ≤ (phaseAfter blocks.flatten).need) :
    Waiting opens (blocks ++ [b]) ∨ Ending opens (blocks ++ [b]) := by
  cases waiting with
  | header cuts short =>
      rw [phaseAfter_header short, Phase.need] at asked
      have more := cuts.append cut
      obtain less | all : (blocks ++ [b]).flatten.length < DataMessage.size ∨
          (blocks ++ [b]).flatten.length = DataMessage.size := by
        simp only [List.flatten_append, List.length_append, List.flatten_singleton]
        omega
      · exact .inl (.header more less)
      · exact waiting_or_ending_of_header more all
  | @path hdr path cuts cuts' whole short =>
      rw [List.flatten_append, phaseAfter_path whole short, Phase.need] at asked
      have more := cuts'.append cut
      rw [List.append_assoc]
      obtain less | all : (path ++ [b]).flatten.length < pathLen hdr.flatten ∨
          (path ++ [b]).flatten.length = pathLen hdr.flatten := by
        simp only [List.flatten_append, List.length_append, List.flatten_singleton]
        omega
      · exact .inl (.path cuts more whole less)
      · exact waiting_or_ending_of_path cuts more whole all
  | @payload hdr path got cuts cuts' cuts'' whole named regular opened short =>
      rw [List.flatten_append, List.flatten_append, ← List.append_assoc,
        phaseAfter_payload whole named regular short, Phase.need] at asked
      have more := cuts''.append cut
      rw [List.append_assoc, List.append_assoc]
      obtain less | all : (got ++ [b]).flatten.length < fsize hdr.flatten ∨
          (got ++ [b]).flatten.length = fsize hdr.flatten := by
        simp only [List.flatten_append, List.length_append, List.flatten_singleton]
        omega
      · exact .inl (.payload cuts cuts' more whole named regular opened less)
      · exact .inr (.file cuts cuts' more whole named regular opened all)

/-- A wake-up that waits asks for something. -/
theorem Waiting.need_pos (waiting : Waiting opens blocks) :
    0 < (phaseAfter blocks.flatten).need := by
  cases waiting with
  | header cuts short =>
      rw [phaseAfter_header short]
      exact Nat.sub_pos_of_lt short
  | path cuts cuts' whole short =>
      rw [List.flatten_append, phaseAfter_path whole short]
      exact Nat.sub_pos_of_lt short
  | payload cuts cuts' cuts'' whole named regular opened short =>
      rw [List.flatten_append, List.flatten_append, ← List.append_assoc,
        phaseAfter_payload whole named regular short]
      exact Nat.sub_pos_of_lt short

/-- Where a wake-up waits, a message is incomplete. -/
theorem Waiting.incomplete (waiting : Waiting opens blocks) (some_ : blocks ≠ []) :
    phaseAfter blocks.flatten ≠ .header [] := by
  cases waiting with
  | header cuts short =>
      rw [phaseAfter_header short]
      intro same
      obtain ⟨b, others, rfl⟩ := List.exists_cons_of_ne_nil some_
      have first := (cuts b List.mem_cons_self).1
      simp [first] at same
  | path cuts cuts' whole short =>
      rw [List.flatten_append, phaseAfter_path whole short]
      simp
  | payload cuts cuts' cuts'' whole named regular opened short =>
      rw [List.flatten_append, List.flatten_append, ← List.append_assoc,
        phaseAfter_payload whole named regular short]
      simp

end Reads

/-! ## In the daemon -/

section Server

variable {inherited : List Bool} {fs : Fs} {dmsg : DaemonInitMessage} {d : Server} {pfd : PollFd}
  {k : ℕ} {ans : Answers} {blocks : List Bytes}

/-- The answers of a round that hands over these blocks. -/
def Answers.giving (ans : Answers) (blocks : List Bytes) : Answers :=
  { ans with reads := handing blocks }

/-- A connection whose turn it is, in a daemon whose connections stand between messages. -/
structure Turn (inherited : List Bool) (fs : Fs) (dmsg : DaemonInitMessage) (d : Server)
    (pfd : PollFd) (k : ℕ) : Prop where
  reachable : Reachable step (start inherited fs dmsg) d
  running : d.status = .running
  resting : Resting d
  here : d.fds[d.idx]? = some pfd
  readable : pfd.ReadableOn d k

theorem Turn.tracks (turn : Turn inherited fs dmsg d pfd k) (blocks : List Bytes) :
    Tracks (d.answered (ans.giving blocks)) k (d.stateOf pfd.fd) (.header []) := by
  have invariant := reachable_invariant turn.reachable
  have unfailed := invariant.running turn.running
  have coherent := invariant.coherent (by simp [turn.running]) unfailed
  have found := coherent.stateOf turn.here turn.readable.other
  obtain ⟨p, tracks⟩ :=
    (coherent.answered (ans.giving blocks)).tracks _ _ _ found turn.readable.conn
  obtain rfl := tracks.state.eq_of_connected (turn.resting.stateOf pfd.fd)
  exact tracks

/-- A round that waits is not over. -/
theorem Turn.blocked (turn : Turn inherited fs dmsg d pfd k)
    (waiting : Waiting (Opens ans d.world.fs) blocks) : step d (.round (ans.giving blocks)) = none := by
  have kind := turn.resting.stateOf pfd.fd
  have waiting : Waiting (Opens (ans.giving blocks) (d.answered (ans.giving blocks)).fs) blocks :=
    waiting
  have spec : wp (wakeUp k (ans.giving blocks) (d.stateOf pfd.fd)) _ _
      (d.answered (ans.giving blocks)) :=
    waiting.blocked (turn.tracks blocks) kind rfl
  rw [step_readable turn.running turn.here turn.readable]
  simp only [wp, Server.stateOf, Server.answered] at spec
  simp only [Server.readable, turn.readable.conn]
  split at spec
  · exact spec.elim
  · rename_i outcome
    subst spec
    rw [outcome]

/-- A round at its end is over. -/
theorem Turn.ends (turn : Turn inherited fs dmsg d pfd k) (ending : Ending (Opens ans d.world.fs) blocks) :
    ∃ d', step d (.round (ans.giving blocks)) = some d' := by
  have kind := turn.resting.stateOf pfd.fd
  have ending : Ending (Opens (ans.giving blocks) (d.answered (ans.giving blocks)).fs) blocks :=
    ending
  have spec : wp (wakeUp k (ans.giving blocks) (d.stateOf pfd.fd)) _ _
      (d.answered (ans.giving blocks)) :=
    ending.used (turn.tracks blocks) kind rfl
  rw [step_readable turn.running turn.here turn.readable]
  simp only [wp, Server.stateOf, Server.answered] at spec
  simp only [Server.readable, turn.readable.conn]
  split at spec
  · rename_i outcome
    rw [outcome]
    simp only [spec, if_true]
    exact ⟨_, rfl⟩
  · rename_i outcome
    obtain ⟨rfl, used⟩ := spec
    rw [outcome]
    simp only [used, if_true]
    exact ⟨_, rfl⟩

/-- The daemon after a round that has served connection `k`. -/
structure Served (d d' : Server) (k : ℕ) (bytes : Bytes) : Prop where
  resting : Resting d'
  fds : d'.fds = d.fds
  idx : d'.idx = d.idx + 1
  socketFds : d'.socketFds = d.socketFds
  conns : ∀ x ∉ d.socketFds, ∀ j,
    d'.world.table.get x = some (.conn j) ↔ d.world.table.get x = some (.conn j)
  received : d'.world.received k = d.world.received k ++ bytes
  others : ∀ j, j ≠ k → d'.world.received j = d.world.received j

/-- A round that is over has taken in its blocks, or it has ended the daemon. -/
theorem Turn.served (turn : Turn inherited fs dmsg d pfd k) {d' : Server}
    (stepped : step d (.round (ans.giving blocks)) = some d') (going : d'.status = .running) :
    Served d d' k blocks.flatten := by
  have ongoing : SysRead.zero ∉ (Input.round (ans.giving blocks)).reads := by
    simp [Input.reads, Answers.giving, handing]
  obtain ⟨resting, -⟩ :=
    turn.resting.after_step (k := k) turn.reachable ongoing stepped going
  have invariant := reachable_invariant turn.reachable
  have unfailed := invariant.running turn.running
  have coherent := invariant.coherent (by simp [turn.running]) unfailed
  have found := coherent.stateOf turn.here turn.readable.other
  obtain ⟨sane, rest⟩ := (reachable_settled turn.reachable).stateOf pfd.fd
  rw [step_readable turn.running turn.here turn.readable] at stepped
  cases readable_inv stepped with
  | returned => cases going
  | failed => cases going
  | dangling => cases going
  | @woken j st w conn outcome used =>
      obtain rfl : k = j := by simpa [turn.readable.conn] using conn
      obtain ⟨chain, -, -⟩ := (wp_ok outcome).1 (wakeUp_moves sane rest)
      have flow := (wp_ok outcome).1 (wakeUp_stream (d.answered (ans.giving blocks)))
      refine ⟨resting, rfl, rfl, rfl, fun x outside j => ⟨chain.frame.conns x j, fun opened => ?_⟩,
        ?_, chain.frame.received⟩
      · have free := coherent.anonFd_ne found outside opened
        exact (chain.frame.table x (by simp [opened]) free).trans opened
      · simpa [World.flow, stream, used, incoming, Server.answered, Answers.giving,
          incoming_handing] using flow

end Server

end Enuwatch.Daemon

import Mathlib.Tactic.Common

/-!
# Machines fed one symbol at a time

A transducer takes one input symbol, moves, and emits some output. Feeding it a
word is feeding the symbols one after the other, so how a word is cut into
blocks does not matter (`after_append`), and what it has emitted on a word stays
emitted on every longer one (`emitted_isPrefix`).

A collector is a transducer that fills the buffer of its state up to a goal and then
settles into a new state. On a block that does not go past the goal it can be fed the
whole block at once (`Collector.after_settle`, `Collector.emitted_settle`).

A code is self-delimiting when a word shows where it ends. A text then has one division into words
of the code and a rest in which none is complete (`SelfDelimiting.unique`).
-/

set_option autoImplicit false

namespace Enuwatch.Lib

universe u v w

/-- A machine that consumes symbols of `β` and emits outputs of `ω`. -/
structure Transducer (σ : Type u) (β : Type v) (ω : Type w) where
  feed : σ → β → σ × List ω

namespace Transducer

variable {σ : Type u} {β : Type v} {ω : Type w} (M : Transducer σ β ω)

/-- The state after a word. -/
def after : σ → List β → σ
  | s, [] => s
  | s, b :: bs => after (M.feed s b).1 bs

/-- The output on a word. -/
def emitted : σ → List β → List ω
  | _, [] => []
  | s, b :: bs => (M.feed s b).2 ++ emitted (M.feed s b).1 bs

@[simp] theorem after_nil (s : σ) : M.after s [] = s := rfl

@[simp] theorem emitted_nil (s : σ) : M.emitted s [] = [] := rfl

theorem after_append (s : σ) (first second : List β) :
    M.after s (first ++ second) = M.after (M.after s first) second := by
  induction first generalizing s with
  | nil => rfl
  | cons b first ih => exact ih _

theorem emitted_append (s : σ) (first second : List β) :
    M.emitted s (first ++ second) = M.emitted s first ++ M.emitted (M.after s first) second := by
  induction first generalizing s with
  | nil => rfl
  | cons b first ih => simp only [List.cons_append, emitted, after, ih, List.append_assoc]

/-- What is emitted on a word stays emitted on every extension of it. -/
theorem emitted_isPrefix (s : σ) {first word : List β} (isPrefix : first <+: word) :
    M.emitted s first <+: M.emitted s word := by
  obtain ⟨second, rfl⟩ := isPrefix
  rw [emitted_append]
  exact List.prefix_append _ _

end Transducer

/-- A machine whose state collects symbols up to a goal: `need` symbols are missing,
`extend` adds a block, and `settle` acts once nothing is missing. -/
structure Collector (σ : Type u) (β : Type v) (ω : Type w) where
  need : σ → ℕ
  extend : σ → List β → σ
  settle : σ → σ × List ω
  extend_nil : ∀ s, extend s [] = s
  extend_append : ∀ s first second, extend (extend s first) second = extend s (first ++ second)
  need_extend : ∀ s block, need (extend s block) = need s - block.length
  settle_of_need : ∀ s, need s ≠ 0 → settle s = (s, [])
  need_settle : ∀ s, need (settle s).1 ≠ 0

namespace Collector

variable {σ : Type u} {β : Type v} {ω : Type w} (C : Collector σ β ω)

/-- Collect one symbol and settle. -/
def transducer : Transducer σ β ω where
  feed s b := C.settle (C.extend s [b])

/-- A block within the goal is collected at once. -/
theorem feed_block {s : σ} (missing : C.need s ≠ 0) (block : List β)
    (fits : block.length ≤ C.need s) :
    (C.transducer.after s block, C.transducer.emitted s block) = C.settle (C.extend s block) := by
  induction block generalizing s with
  | nil => rw [C.extend_nil, C.settle_of_need s missing]; rfl
  | cons b block ih =>
      by_cases last : block = []
      · subst last
        simp [Transducer.after, Transducer.emitted, transducer]
      · have length : block.length ≠ 0 := fun zero => last (List.eq_nil_of_length_eq_zero zero)
        have need : C.need (C.extend s [b]) = C.need s - 1 := C.need_extend s [b]
        rw [List.length_cons] at fits
        have settled := C.settle_of_need (C.extend s [b]) (by omega)
        have rest := ih (s := C.extend s [b]) (by omega) (by omega)
        rw [C.extend_append] at rest
        simpa [Transducer.after, Transducer.emitted, transducer, settled] using rest

/-- Settling before a block or after it makes no difference. A state with nothing missing
takes the empty block only. -/
theorem after_settle {s : σ} {block : List β} (fits : block.length ≤ C.need s) :
    C.transducer.after (C.settle s).1 block = (C.settle (C.extend s block)).1 := by
  by_cases missing : C.need s = 0
  · obtain rfl : block = [] := List.eq_nil_of_length_eq_zero (by omega)
    rw [C.extend_nil]
    rfl
  · rw [C.settle_of_need s missing]
    exact congrArg Prod.fst (C.feed_block missing block fits)

theorem emitted_settle {s : σ} {block : List β} (fits : block.length ≤ C.need s) :
    (C.settle s).2 ++ C.transducer.emitted (C.settle s).1 block =
      (C.settle (C.extend s block)).2 := by
  by_cases missing : C.need s = 0
  · obtain rfl : block = [] := List.eq_nil_of_length_eq_zero (by omega)
    rw [C.extend_nil, Transducer.emitted_nil, List.append_nil]
  · rw [C.settle_of_need s missing]
    exact congrArg Prod.snd (C.feed_block missing block fits)

/-- Fed any word, a collector stays short of its goal. -/
theorem need_after {s : σ} (missing : C.need s ≠ 0) (word : List β) :
    C.need (C.transducer.after s word) ≠ 0 := by
  induction word generalizing s with
  | nil => exact missing
  | cons b word ih => exact ih (C.need_settle _)

end Collector

/-! ## Codes -/

section Codes

variable {M : Type u} {α : Type v} {code : M → List α}

/-- A word of the code shows where it ends. -/
def SelfDelimiting (code : M → List α) : Prop :=
  ∀ m m' rest rest', code m ++ rest = code m' ++ rest' → m = m'

/-- No word of the code is complete. -/
def Incomplete (code : M → List α) (rest : List α) : Prop := ∀ m, ¬ code m <+: rest

theorem Incomplete.ne_cons {rest : List α} (incomplete : Incomplete code rest) (m : M)
    (ms : List M) (rest' : List α) : rest ≠ (m :: ms).flatMap code ++ rest' := by
  rintro rfl
  refine incomplete m ⟨ms.flatMap code ++ rest', ?_⟩
  rw [List.flatMap_cons, List.append_assoc]

/-- A text has one division into words and an incomplete rest. -/
theorem SelfDelimiting.unique (delimiting : SelfDelimiting code) {ms ms' : List M}
    {rest rest' : List α} (incomplete : Incomplete code rest) (incomplete' : Incomplete code rest')
    (same : ms.flatMap code ++ rest = ms'.flatMap code ++ rest') : ms = ms' ∧ rest = rest' := by
  induction ms generalizing ms' with
  | nil =>
      cases ms' with
      | nil => exact ⟨rfl, same⟩
      | cons m' ms' => exact absurd same (incomplete.ne_cons m' ms' rest')
  | cons m ms ih =>
      cases ms' with
      | nil => exact absurd same.symm (incomplete'.ne_cons m ms rest)
      | cons m' ms' =>
          rw [List.flatMap_cons, List.flatMap_cons, List.append_assoc, List.append_assoc] at same
          obtain rfl := delimiting m m' _ _ same
          obtain ⟨rfl, rfl⟩ := ih (List.append_cancel_left same)
          exact ⟨rfl, rfl⟩

end Codes

end Enuwatch.Lib

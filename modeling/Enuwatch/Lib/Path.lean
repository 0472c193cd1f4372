import Enuwatch.Lib.Buffer

/-!
# Paths as text and as components

The text of a path is its components with slashes between them (`joinPath`). Components that
are not empty and hold no slash can be read back (`splitOn_joinPath`), so the text of a path
determines them (`joinPath_inj`).

`lexicallyRelative` is the operation of `std::filesystem` on two absolute paths without links or
dots: as many `..` as the base goes on after the two paths part, and then the rest of the path.
-/

set_option autoImplicit false

namespace Enuwatch.Lib

/-- `.` -/
def dot : Bytes := [46]

/-- `..` -/
def dotdot : Bytes := [46, 46]

/-- The text of a path. -/
def joinPath (components : List Bytes) : Bytes := [47].intercalate components

theorem splitOn_joinPath {components : List Bytes} (some : components ≠ [])
    (clean : ∀ c ∈ components, 47 ∉ c) : (joinPath components).splitOn 47 = components :=
  List.splitOn_intercalate 47 clean some

/-- Only the empty path has an empty text. -/
theorem joinPath_eq_nil {components : List Bytes} (named : ∀ c ∈ components, c ≠ []) :
    joinPath components = [] ↔ components = [] := by
  cases components with
  | nil => simp [joinPath]
  | cons first rest =>
      have some : first ≠ [] := named first List.mem_cons_self
      cases rest <;> simp [joinPath, List.intercalate, some]

theorem joinPath_inj {first second : List Bytes}
    (named : ∀ c ∈ first ++ second, c ≠ [] ∧ 47 ∉ c) (same : joinPath first = joinPath second) :
    first = second := by
  have clean : ∀ c ∈ first ++ second, 47 ∉ c := fun c among => (named c among).2
  have some : ∀ c ∈ first ++ second, c ≠ [] := fun c among => (named c among).1
  simp only [List.forall_mem_append] at clean some
  by_cases empty : second = []
  · have none : joinPath first = [] := by rw [same, empty]; rfl
    rw [(joinPath_eq_nil some.1).1 none, empty]
  · have nonempty : first ≠ [] := by
      rintro rfl
      exact empty ((joinPath_eq_nil some.2).1 same.symm)
    rw [← splitOn_joinPath nonempty clean.1, same, splitOn_joinPath empty clean.2]

theorem joinPath_cons (c : Bytes) (rest : List Bytes) :
    joinPath (c :: rest) = c ++ if rest = [] then [] else 47 :: joinPath rest := by
  cases rest <;> simp [joinPath, List.intercalate]

theorem mem_joinPath {components : List Bytes} {b : UInt8} (among : b ∈ joinPath components) :
    b = 47 ∨ ∃ c ∈ components, b ∈ c := by
  induction components with
  | nil => simp [joinPath] at among
  | cons c rest ih =>
      rw [joinPath_cons, List.mem_append] at among
      obtain first | later := among
      · exact .inr ⟨c, List.mem_cons_self, first⟩
      · split at later
        · simp at later
        · obtain rfl | later := List.mem_cons.1 later
          · exact .inl rfl
          · exact (ih later).imp_right fun ⟨d, among, inside⟩ =>
              ⟨d, List.mem_cons_of_mem _ among, inside⟩

/-- `path::lexically_relative`. -/
def lexicallyRelative : List Bytes → List Bytes → List Bytes
  | [], [] => [dot]
  | [], _ :: base => List.replicate (base.length + 1) dotdot
  | a :: path, [] => a :: path
  | a :: path, b :: base =>
      if a = b then lexicallyRelative path base
      else List.replicate (base.length + 1) dotdot ++ a :: path

theorem lexicallyRelative_append (base rest : List Bytes) :
    lexicallyRelative (base ++ rest) base = if rest = [] then [dot] else rest := by
  induction base with
  | nil => cases rest <;> simp [lexicallyRelative]
  | cons b base ih => simpa [lexicallyRelative] using ih

theorem mem_lexicallyRelative {path base : List Bytes} {c : Bytes}
    (among : c ∈ lexicallyRelative path base) : c ∈ path ∨ c = dot ∨ c = dotdot := by
  induction path, base using lexicallyRelative.induct with
  | case1 => exact .inr (.inl (by simpa [lexicallyRelative] using among))
  | case2 => exact .inr (.inr (List.eq_of_mem_replicate among))
  | case3 => exact .inl among
  | case4 b path base ih =>
      have below := ih (by simpa [lexicallyRelative] using among)
      exact below.imp (List.mem_cons_of_mem _) id
  | case5 a path b base other =>
      simp only [lexicallyRelative, other, if_false, List.mem_append] at among
      exact among.elim (fun up => .inr (.inr (List.eq_of_mem_replicate up))) .inl

/-- A relative path without dots leads down from the base. -/
theorem eq_append_of_lexicallyRelative {path base rest : List Bytes} (here : rest ≠ [dot])
    (down : dotdot ∉ rest) (relative : lexicallyRelative path base = rest) : path = base ++ rest := by
  induction path, base using lexicallyRelative.induct with
  | case1 => exact absurd relative.symm here
  | case2 => simp [← relative, lexicallyRelative, List.replicate_succ] at down
  | case3 => exact relative
  | case4 b path base ih =>
      rw [List.cons_append, ← ih (by simpa [lexicallyRelative] using relative)]
  | case5 a path b base other =>
      simp [← relative, lexicallyRelative, other, List.replicate_succ] at down

end Enuwatch.Lib

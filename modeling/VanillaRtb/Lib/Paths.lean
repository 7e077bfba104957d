import Mathlib

/-! # Paths

A path is split into its components and walked from a directory, or from the root if it begins
with a separator. A walk without a step up stays below where it starts. Nothing here follows
links: a place in the tree is the list of the names on the way to it.
-/

namespace VanillaRtb.Lib.Path

variable {α : Type u} [DecidableEq α] (slash dot : α)

/-- One component: nothing, or the directory itself, or its parent, or one of its entries. -/
def enter (place : List (List α)) (component : List α) : List (List α) :=
  if component = [] ∨ component = [dot] then place
  else if component = [dot, dot] then place.dropLast
  else place ++ [component]

def walk (place : List (List α)) (components : List (List α)) : List (List α) :=
  components.foldl (enter dot) place

/-- Where a path leads from the working directory. -/
def resolve (cwd : List (List α)) (path : List α) : List (List α) :=
  walk dot (if path.head? = some slash then [] else cwd) (path.splitOn slash)

variable {slash dot} {place cwd : List (List α)} {components : List (List α)} {root path : List α}

theorem prefix_enter {component : List α} (stays : component ≠ [dot, dot]) :
    place <+: enter dot place component := by
  rw [enter, if_neg stays]
  split
  · exact List.prefix_rfl
  · exact List.prefix_append _ _

theorem prefix_walk (stays : [dot, dot] ∉ components) : place <+: walk dot place components := by
  induction components generalizing place with
  | nil => exact List.prefix_rfl
  | cons component components ih =>
      rw [List.mem_cons, not_or] at stays
      exact (prefix_enter (Ne.symm stays.1)).trans (ih stays.2)

theorem infix_of_mem_splitOn {component : List α} (inside : component ∈ path.splitOn slash) :
    component <:+: path := by
  rw [← @List.intercalate_splitOn _ path _ _ slash]
  generalize path.splitOn slash = components at inside
  induction components with
  | nil => cases inside
  | cons first components ih =>
      cases components with
      | nil =>
          obtain rfl := List.mem_singleton.mp inside
          simp
      | cons second components =>
          rw [List.intercalate_cons_cons, List.append_assoc]
          cases inside with
          | head => exact (List.prefix_append _ _).isInfix
          | tail _ later =>
              rw [← List.append_assoc]
              exact (ih later).trans (List.suffix_append _ _).isInfix

omit [DecidableEq α] in
/-- Two dots in a row are on one side of any other character. -/
theorem dots_beside {c : α} (other : c ≠ dot) {before after : List α}
    (inside : [dot, dot] <:+: before ++ c :: after) :
    [dot, dot] <:+: before ∨ [dot, dot] <:+: after := by
  induction before with
  | nil =>
      rcases List.infix_cons_iff.mp inside with here | later
      · exact absurd (List.cons_prefix_cons.mp here).1.symm other
      · exact .inr later
  | cons x before ih =>
      rcases List.infix_cons_iff.mp inside with here | later
      · obtain ⟨rfl, next⟩ := List.cons_prefix_cons.mp here
        cases before with
        | nil => exact absurd (List.cons_prefix_cons.mp next).1.symm other
        | cons y before =>
            obtain ⟨rfl, -⟩ := List.cons_prefix_cons.mp next
            exact .inl (List.prefix_append [dot, dot] before).isInfix
      · exact (ih later).imp_left fun left => left.trans (List.suffix_cons x before).isInfix

/-- What is behind a separator is walked from where the part before it leads. -/
theorem resolve_append (cwd : List (List α)) (root path : List α) :
    resolve slash dot cwd (root ++ slash :: path) =
      walk dot (resolve slash dot cwd (root ++ [slash])) (path.splitOn slash) := by
  have first : (root ++ slash :: path).head? = (root ++ [slash]).head? := by
    cases root <;> rfl
  simp only [resolve, first, List.splitOn_append_cons_self, walk, List.foldl_append]
  simp [enter]

/-- A path that is nowhere made of two dots stays below the directory in front of it. -/
theorem resolve_within (cwd : List (List α)) (root : List α) (plain : ¬ [dot, dot] <:+: path) :
    resolve slash dot cwd (root ++ [slash]) <+: resolve slash dot cwd (root ++ slash :: path) := by
  rw [resolve_append cwd root path]
  apply prefix_walk
  intro inside
  exact plain (infix_of_mem_splitOn inside)

end VanillaRtb.Lib.Path

import Mathlib.Data.List.Basic
import Mathlib.Data.List.Flatten

/-!
# Nested arrays

A `Nested` is a value or an array of such, of any lengths. A place in one
is a path of positions, counted from 1; `sub` is what stands at a path.

`collapse` leaves out the arrays of one element. It keeps the leaves and their order
(`leaves_collapse`), and afterwards there is no such array at any path
(`collapse_collapsed`).

Lean's own induction for a nested type asks for a second statement about lists;
`Nested.ind` is the induction with the statement for all elements of an array.
-/

namespace Lua2SC.NestedArrays

inductive Nested (α : Type*) where
  | leaf (a : α)
  | node (ts : List (Nested α))

namespace Nested

variable {α : Type*}

theorem ind {p : Nested α → Prop} (hleaf : ∀ a, p (.leaf a))
    (hnode : ∀ ts, (∀ t ∈ ts, p t) → p (.node ts)) (t : Nested α) : p t := by
  refine @Nested.rec α p (fun ts => ∀ t ∈ ts, p t) hleaf hnode ?_ ?_ t
  · intro t ht
    cases ht
  · intro t ts ht hts u hu
    rcases List.mem_cons.mp hu with rfl | hu
    · exact ht
    · exact hts u hu

mutual

/-- The values, from left to right. -/
def leaves : Nested α → List α
  | .leaf a => [a]
  | .node ts => leavesAll ts

def leavesAll : List (Nested α) → List α
  | [] => []
  | t :: ts => t.leaves ++ leavesAll ts

end

mutual

/-- The number of arrays. -/
def weight : Nested α → ℕ
  | .leaf _ => 0
  | .node ts => weightAll ts + 1

def weightAll : List (Nested α) → ℕ
  | [] => 0
  | t :: ts => t.weight + weightAll ts

end

/-- The tree at a path. -/
def sub : List ℕ → Nested α → Option (Nested α)
  | [], t => some t
  | 0 :: _, _ => none
  | (i + 1) :: path, .node ts => ts[i]?.bind (sub path)
  | (_ + 1) :: _, .leaf _ => none

/-- An array, unless it has one element. -/
def single : List (Nested α) → Nested α
  | [t] => t
  | ts => .node ts

mutual

/-- The tree without its arrays of one element. -/
def collapse : Nested α → Nested α
  | .leaf a => .leaf a
  | .node ts => single (collapseAll ts)

def collapseAll : List (Nested α) → List (Nested α)
  | [] => []
  | t :: ts => t.collapse :: collapseAll ts

end

theorem leavesAll_eq (ts : List (Nested α)) : leavesAll ts = ts.flatMap leaves := by
  induction ts with
  | nil => rfl
  | cons t ts ih => rw [leavesAll, ih, List.flatMap_cons]

theorem collapseAll_eq (ts : List (Nested α)) : collapseAll ts = ts.map collapse := by
  induction ts with
  | nil => rfl
  | cons t ts ih => rw [collapseAll, ih, List.map_cons]

theorem weight_le_weightAll {t : Nested α} {ts : List (Nested α)} (h : t ∈ ts) :
    t.weight ≤ weightAll ts := by
  induction ts with
  | nil => cases h
  | cons u ts ih =>
    rw [weightAll]
    rcases List.mem_cons.mp h with rfl | h
    · omega
    · exact Nat.le_trans (ih h) (Nat.le_add_left _ _)

theorem leaves_single (ts : List (Nested α)) : (single ts).leaves = ts.flatMap leaves := by
  unfold single
  split
  next t => rw [List.flatMap_singleton]
  next => rw [leaves, leavesAll_eq]

theorem leaves_collapse (t : Nested α) : t.collapse.leaves = t.leaves := by
  induction t using Nested.ind with
  | hleaf a => rfl
  | hnode ts ih =>
    rw [collapse, leaves_single, collapseAll_eq, List.flatMap_map, leaves, leavesAll_eq]
    exact List.flatMap_congr ih

/-- No array has one element. -/
def Collapsed (t : Nested α) : Prop := ∀ path ts, t.sub path = some (.node ts) → ts.length ≠ 1

theorem collapsed_single {ts : List (Nested α)} (h : ∀ t ∈ ts, t.Collapsed) : (single ts).Collapsed := by
  unfold single
  split
  next t => exact h t List.mem_cons_self
  next hmany =>
    intro path us hsub
    match path, hsub with
    | [], hsub =>
      cases hsub
      intro hone
      obtain ⟨t, rfl⟩ := List.length_eq_one_iff.mp hone
      exact hmany t rfl
    | (i + 1) :: path, hsub =>
      obtain ⟨t, ht, hsub⟩ := Option.bind_eq_some_iff.mp hsub
      exact h t (List.mem_of_getElem? ht) path us hsub

/-- **After the collapse** no array has one element. -/
theorem collapse_collapsed (t : Nested α) : t.collapse.Collapsed := by
  induction t using Nested.ind with
  | hleaf a =>
    intro path ts hsub
    match path, hsub with
    | [], hsub => cases hsub
    | 0 :: _, hsub => cases hsub
    | (_ + 1) :: _, hsub => cases hsub
  | hnode ts ih =>
    rw [collapse, collapseAll_eq]
    refine collapsed_single fun t ht => ?_
    obtain ⟨u, hu, rfl⟩ := List.mem_map.mp ht
    exact ih u hu

end Nested

end Lua2SC.NestedArrays

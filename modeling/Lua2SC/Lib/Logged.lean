import Mathlib.Control.Monad.Writer
import Mathlib.Data.List.Flatten

/-!
# Computations that may fail and append to a log

A `Logged W α` fails, or gives a value and what it has appended to a log it never reads.
Results are taken apart by `bind_eq_some` and `pure_eq_some`: the log of a sequence is
the log of its first part, then that of its second.

`each` runs a computation over a list and gives as many results as the list has elements,
which is part of its type: a recursion on a list that gets shorter can use it. What a run
of it has done is a list of its calls (`each_eq_some`), each with its element, its result
and its share of the log.
-/

namespace Lua2SC.Logging

variable {W α β : Type}

/-- A failure, or a value and what was logged. -/
abbrev Logged (W α : Type) := WriterT (List W) Option α

/-- The failure. -/
def fail : Logged W α := WriterT.mk none

/-- A value that may be missing. -/
def ofOption (x : Option α) : Logged W α := WriterT.mk (x.map fun a => (a, []))

/-- Logging an entry. -/
def log (x : W) : Logged W Unit := WriterT.mk (some ((), [x]))

theorem bind_eq_some {m : Logged W α} {f : α → Logged W β} {b : β} {w : List W} :
    (m >>= f).run = some (b, w) ↔
      ∃ a w₁ w₂, m.run = some (a, w₁) ∧ (f a).run = some (b, w₂) ∧ w = w₁ ++ w₂ := by
  show (m.run.bind fun p => ((f p.1).run.map fun q => (q.1, p.2 ++ q.2))) = some (b, w) ↔ _
  rw [Option.bind_eq_some_iff]
  refine ⟨fun ⟨⟨a, w₁⟩, hm, hf⟩ => ?_, fun ⟨a, w₁, w₂, hm, hf, hw⟩ => ⟨(a, w₁), hm, ?_⟩⟩
  · obtain ⟨q, hq, heq⟩ := Option.map_eq_some_iff.mp hf
    cases heq
    exact ⟨a, w₁, q.2, hm, hq, rfl⟩
  · rw [hf, hw]
    rfl

theorem pure_eq_some {a b : α} {w : List W} :
    (pure a : Logged W α).run = some (b, w) ↔ b = a ∧ w = [] := by
  show some (a, []) = some (b, w) ↔ _
  rw [Option.some.injEq, Prod.mk.injEq, eq_comm (a := a), eq_comm (a := [])]

theorem ofOption_eq_some {x : Option α} {b : α} {w : List W} :
    (ofOption x : Logged W α).run = some (b, w) ↔ x = some b ∧ w = [] := by
  cases x with
  | none => exact ⟨fun h => (by cases h), fun h => by cases h.1⟩
  | some a => exact pure_eq_some.trans (and_congr_left' ⟨fun h => h ▸ rfl, fun h => by cases h; rfl⟩)

/-- The results of a computation on every element of a list. -/
def each (f : α → Logged W β) : (xs : List α) → Logged W {ys : List β // ys.length = xs.length}
  | [] => pure ⟨[], rfl⟩
  | x :: xs => do
    let y ← f x
    let ys ← each f xs
    return ⟨y :: ys.1, congrArg (· + 1) ys.2⟩

/-- One call in a run of `each`: its element, its result and what it has logged. -/
structure Call (W α β : Type) where
  input : α
  result : β
  logged : List W

theorem each_eq_some {f : α → Logged W β} {xs : List α} {ys : {ys : List β // ys.length = xs.length}}
    {w : List W} (h : (each f xs).run = some (ys, w)) : ∃ calls : List (Call W α β),
      calls.map Call.input = xs ∧ calls.map Call.result = ys.1 ∧
        (calls.map Call.logged).flatten = w ∧
          ∀ c ∈ calls, (f c.input).run = some (c.result, c.logged) := by
  induction xs generalizing w with
  | nil =>
    obtain ⟨rfl, rfl⟩ := pure_eq_some.mp h
    exact ⟨[], rfl, rfl, rfl, fun c hc => by cases hc⟩
  | cons x xs ih =>
    obtain ⟨y, w₁, w', hy, hrest, rfl⟩ := bind_eq_some.mp h
    obtain ⟨ys', w₂, w₃, hys, hpure, rfl⟩ := bind_eq_some.mp hrest
    obtain ⟨rfl, rfl⟩ := pure_eq_some.mp hpure
    obtain ⟨calls, hin, hres, hlog, hcalls⟩ := ih hys
    refine ⟨⟨x, y, w₁⟩ :: calls, ?_, ?_, ?_, List.forall_mem_cons.mpr ⟨hy, hcalls⟩⟩
    · rw [List.map_cons, hin]
    · rw [List.map_cons, hres]
    · rw [List.map_cons, List.flatten_cons, hlog, List.append_nil]

/-- If no call fails, `each` does not. -/
theorem each_total {f : α → Logged W β} {xs : List α}
    (h : ∀ x ∈ xs, ∃ y w, (f x).run = some (y, w)) : ∃ ys w, (each f xs).run = some (ys, w) := by
  induction xs with
  | nil => exact ⟨_, _, rfl⟩
  | cons x xs ih =>
    obtain ⟨y, w₁, hy⟩ := h x List.mem_cons_self
    obtain ⟨ys, w₂, hys⟩ := ih fun z hz => h z (List.mem_cons_of_mem x hz)
    exact ⟨_, _, bind_eq_some.mpr ⟨y, w₁, _, hy,
      bind_eq_some.mpr ⟨ys, w₂, [], hys, rfl, rfl⟩, rfl⟩⟩

end Lua2SC.Logging

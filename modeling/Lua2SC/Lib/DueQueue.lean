import Mathlib

/-!
# Queues drained from the front while their entries are due

A queue of timed entries is kept in order and served from its front: entries
are taken while the first one is due, and the loop stops at the first that is
not. In an ordered queue the entries taken are exactly those that are due
(`InOrder.takeWhile`), and those left exactly the others
(`InOrder.dropWhile`), for any notion of due that holds of an entry whenever
it holds of a later one (`Early`).

Of the sorting function only what a language manual promises is used: the
result is a permutation in which no entry is less than one before it
(`SortsBy`). Equal entries may come out in any order.
-/

namespace Lua2SC.DueQueue

variable {α : Type*}

/-- The function sorts by the comparison: a permutation in which no entry is
less than one before it. -/
def SortsBy (lt : α → α → Bool) (sort : List α → List α) : Prop :=
  ∀ q, (sort q).Perm q ∧ (sort q).Pairwise fun a b => lt b a = false

variable {R : Type*} [LinearOrder R] (time : α → R)

/-- The entries stand in the order of their times. -/
def InOrder (q : List α) : Prop := q.Pairwise fun a b => time a ≤ time b

variable {time}

/-- Sorting by time puts a queue in order. -/
theorem SortsBy.inOrder {sort : List α → List α}
    (h : SortsBy (fun a b => decide (time b > time a)) sort) (q : List α) :
    InOrder time (sort q) :=
  (h q).2.imp fun hlt => not_lt.mp (of_decide_eq_false hlt)

variable (time) in
/-- Insertion sort is such a function. -/
theorem sortsBy_insertionSort :
    SortsBy (fun a b => decide (time b > time a))
      (List.insertionSort fun a b => time a ≤ time b) := by
  intro q
  have : Std.Total fun a b : α => time a ≤ time b := ⟨fun a b => le_total _ _⟩
  have : IsTrans α fun a b => time a ≤ time b := ⟨fun a b c => le_trans⟩
  refine ⟨List.perm_insertionSort _ q, (List.pairwise_insertionSort _ q).imp fun hle => ?_⟩
  exact decide_eq_false (not_lt.mpr hle)

variable (time) in
/-- What holds of an entry holds of all entries before it in time. -/
def Early (due : α → Bool) : Prop := ∀ a b, time a ≤ time b → due b = true → due a = true

theorem early_lt (window : R) : Early time fun a => decide (time a < window) := by
  intro a b hle hb
  exact decide_eq_true (hle.trans_lt (of_decide_eq_true hb))

theorem early_le (window : R) : Early time fun a => decide (time a ≤ window) := by
  intro a b hle hb
  exact decide_eq_true (hle.trans (of_decide_eq_true hb))

variable {due : α → Bool} {q : List α}

/-- Behind an entry that is not due, none is. -/
theorem InOrder.not_due {a : α} (hq : InOrder time (a :: q)) (hdue : Early time due)
    (ha : due a = false) : ∀ b ∈ q, due b = false := by
  intro b hb
  by_contra hbdue
  have hle := List.rel_of_pairwise_cons hq hb
  have hadue := hdue a b hle (by simpa using hbdue)
  rw [ha] at hadue
  cases hadue

/-- **What is taken.** -/
theorem InOrder.takeWhile (hq : InOrder time q) (hdue : Early time due) :
    q.takeWhile due = q.filter due := by
  induction q with
  | nil => rfl
  | cons a q ih =>
    cases ha : due a with
    | true => rw [List.takeWhile_cons_of_pos ha, List.filter_cons_of_pos ha, ih hq.of_cons]
    | false =>
      have hnone := hq.not_due hdue ha
      rw [List.takeWhile_cons_of_neg (by rw [ha]; decide),
        List.filter_cons_of_neg (by rw [ha]; decide), eq_comm, List.filter_eq_nil_iff]
      intro b hb
      rw [hnone b hb]
      decide

/-- **What is left.** -/
theorem InOrder.dropWhile (hq : InOrder time q) (hdue : Early time due) :
    q.dropWhile due = q.filter fun a => !due a := by
  induction q with
  | nil => rfl
  | cons a q ih =>
    cases ha : due a with
    | true =>
      rw [List.dropWhile_cons_of_pos ha, List.filter_cons_of_neg (by rw [ha]; decide),
        ih hq.of_cons]
    | false =>
      have hnone := hq.not_due hdue ha
      rw [List.dropWhile_cons_of_neg (by rw [ha]; decide), eq_comm, List.filter_eq_self]
      intro b hb
      rcases List.mem_cons.mp hb with rfl | hb
      · rw [ha]; rfl
      · rw [hnone b hb]; rfl

end Lua2SC.DueQueue

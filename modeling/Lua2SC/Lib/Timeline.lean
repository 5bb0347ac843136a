import Mathlib

/-!
# Items on a time line, and the windows they are looked at through

A track is a sequence of items, possibly finite, each followed by a
pause: item `i` stands at the start plus the pauses of the items before it
(`pos_eq_sum`). An item is due before an end `e` when it exists and stands
before `e`.

A player of the track sees it through windows `[lo, hi)`. Windows are
*forward* when each starts at or after the end of the one before, and
*contiguous* when each starts exactly there. A position is *skipped* by the
windows when none of them has it: that happens in the gaps of a forward
sequence, and nowhere between the two ends of a contiguous one
(`Contiguous.not_skipped`).

Positions live in any linearly ordered additive monoid; pauses are not
negative where an order between items matters.
-/

namespace Lua2SC.Timeline

/-! ## Windows -/

/-- The half-open window `[lo, hi)`. -/
structure Window (R : Type*) where
  lo : R
  hi : R
deriving DecidableEq, Repr

variable {R α : Type*}

section Windows

variable [LinearOrder R]

/-- The position lies in the window. -/
def Window.Has (w : Window R) (x : R) : Prop := w.lo ≤ x ∧ x < w.hi

instance (w : Window R) (x : R) : Decidable (w.Has x) :=
  inferInstanceAs (Decidable (w.lo ≤ x ∧ x < w.hi))

/-- No window has the position. -/
def Skipped (ws : List (Window R)) (x : R) : Prop := ∀ w ∈ ws, ¬ w.Has x

instance (ws : List (Window R)) (x : R) : Decidable (Skipped ws x) :=
  inferInstanceAs (Decidable (∀ w ∈ ws, ¬ w.Has x))

/-- Each window starts at or after the end of the one before; the first at
or after `b`. -/
def Forward : R → List (Window R) → Prop
  | _, [] => True
  | b, w :: ws => b ≤ w.lo ∧ w.lo ≤ w.hi ∧ Forward w.hi ws

/-- Each window starts where the one before ends; the first at `b`. -/
def Contiguous : R → List (Window R) → Prop
  | _, [] => True
  | b, w :: ws => w.lo = b ∧ w.lo ≤ w.hi ∧ Contiguous w.hi ws

instance Forward.decidable : ∀ (b : R) (ws : List (Window R)), Decidable (Forward b ws)
  | _, [] => isTrue trivial
  | b, w :: ws =>
    have := Forward.decidable w.hi ws
    inferInstanceAs (Decidable (b ≤ w.lo ∧ w.lo ≤ w.hi ∧ Forward w.hi ws))

instance Contiguous.decidable : ∀ (b : R) (ws : List (Window R)), Decidable (Contiguous b ws)
  | _, [] => isTrue trivial
  | b, w :: ws =>
    have := Contiguous.decidable w.hi ws
    inferInstanceAs (Decidable (w.lo = b ∧ w.lo ≤ w.hi ∧ Contiguous w.hi ws))

/-- Where the last window ends. -/
def finish : R → List (Window R) → R
  | b, [] => b
  | _, w :: ws => finish w.hi ws

theorem Contiguous.forward {b : R} {ws : List (Window R)} (h : Contiguous b ws) :
    Forward b ws := by
  induction ws generalizing b with
  | nil => trivial
  | cons w ws ih => exact ⟨h.1.ge, h.2.1, ih h.2.2⟩

theorem Forward.le_finish {b : R} {ws : List (Window R)} (h : Forward b ws) :
    b ≤ finish b ws := by
  induction ws generalizing b with
  | nil => exact le_rfl
  | cons w ws ih => exact (h.1.trans h.2.1).trans (ih h.2.2)

/-- What lies before the first window lies in none of them. -/
theorem Forward.skipped_of_lt {b x : R} {ws : List (Window R)} (h : Forward b ws) (hx : x < b) :
    Skipped ws x := by
  induction ws generalizing b with
  | nil => intro w hw; cases hw
  | cons w ws ih =>
    intro v hv
    rcases List.mem_cons.mp hv with rfl | hv
    · intro hhas
      exact absurd (hx.trans_le h.1) (not_lt.mpr hhas.1)
    · exact ih h.2.2 (hx.trans_le (h.1.trans h.2.1)) v hv

/-- Past the end of the first window, it no longer counts. -/
theorem skipped_cons_of_le {w : Window R} {ws : List (Window R)} {x : R} (hx : w.hi ≤ x) :
    Skipped (w :: ws) x ↔ Skipped ws x := by
  constructor
  · intro h v hv
    exact h v (List.mem_cons_of_mem w hv)
  · intro h v hv
    rcases List.mem_cons.mp hv with rfl | hv
    · intro hhas
      exact absurd hhas.2 (not_lt.mpr hx)
    · exact h v hv

/-- **Contiguous windows skip nothing** between their two ends. -/
theorem Contiguous.not_skipped {b x : R} {ws : List (Window R)} (h : Contiguous b ws)
    (hb : b ≤ x) (hx : x < finish b ws) : ¬ Skipped ws x := by
  induction ws generalizing b with
  | nil => exact absurd hx (not_lt.mpr hb)
  | cons w ws ih =>
    intro hsk
    by_cases hin : x < w.hi
    · exact hsk w List.mem_cons_self ⟨h.1.trans_le hb, hin⟩
    · have hle : w.hi ≤ x := not_lt.mp hin
      exact ih h.2.2 hle hx ((skipped_cons_of_le hle).mp hsk)

end Windows

/-! ## Tracks -/

/-- A sequence of items, the first at `start`, each followed by its pause. -/
structure Track (α R : Type*) where
  item : ℕ → Option α
  start : R
  delta : α → R

namespace Track

section Positions

variable [AddCommMonoid R]

/-- The pause after item `i`; nothing follows an item that is not there. -/
def pause (t : Track α R) (i : ℕ) : R := (t.item i).elim 0 t.delta

/-- The position of item `i`. -/
def pos (t : Track α R) : ℕ → R
  | 0 => t.start
  | i + 1 => t.pos i + t.pause i

theorem pos_eq_sum (t : Track α R) (i : ℕ) : t.pos i = t.start + ∑ j ∈ Finset.range i, t.pause j := by
  induction i with
  | zero => simp [pos]
  | succ i ih => rw [pos, ih, Finset.sum_range_succ, add_assoc]

end Positions

variable [AddCommMonoid R] [LinearOrder R] {t : Track α R}

/-- Item `i` exists and stands before `e`. -/
def Due (t : Track α R) (e : R) (i : ℕ) : Prop :=
  (∀ j ≤ i, (t.item j).isSome) ∧ t.pos i < e

/-- No pause is negative. -/
def NonNeg (t : Track α R) : Prop := ∀ i a, t.item i = some a → 0 ≤ t.delta a

theorem NonNeg.pause (h : t.NonNeg) (i : ℕ) : 0 ≤ t.pause i := by
  unfold Track.pause
  cases hi : t.item i with
  | none => exact le_rfl
  | some a => exact h i a hi

variable [IsOrderedAddMonoid R]

theorem NonNeg.pos_le_succ (h : t.NonNeg) (i : ℕ) : t.pos i ≤ t.pos (i + 1) :=
  by
  rw [pos]
  exact le_add_of_nonneg_right (h.pause i)

theorem NonNeg.pos_mono (h : t.NonNeg) : Monotone t.pos := monotone_nat_of_le_succ h.pos_le_succ

end Track

/-! ## Up to a limit -/

namespace Track

section Limit

variable [AddCommGroup R] [LinearOrder R]

/-- The items up to a limit; the item in which the limit lies is cut to what is
left. -/
def upTo (t : Track α R) (limit : R) (cut : R → α → α) : Track α R where
  item i := (t.item i).bind fun a =>
    if t.pos i + t.delta a < limit then some a
    else if t.pos i < limit then some (cut (limit - t.pos i) a)
    else none
  start := t.start
  delta := t.delta

variable [IsOrderedAddMonoid R] {t : Track α R} {limit : R} {cut : R → α → α}

/-- **The positions go on up to the limit** and stay there. -/
theorem pos_upTo (hcut : ∀ d a, t.delta (cut d a) = d) (h : t.NonNeg) (hstart : t.start ≤ limit)
    (i : ℕ) : (t.upTo limit cut).pos i = min limit (t.pos i) := by
  induction i with
  | zero => exact (min_eq_right hstart).symm
  | succ i ih =>
    rw [pos, pos, ih]
    unfold pause upTo
    dsimp only
    cases hi : t.item i with
    | none => simp
    | some a =>
      show min limit (t.pos i) + Option.elim (if t.pos i + t.delta a < limit then some a
        else if t.pos i < limit then some (cut (limit - t.pos i) a) else none) 0 t.delta =
          min limit (t.pos i + t.delta a)
      have hnonneg := h i a hi
      split
      next hin =>
        have hlt : t.pos i < limit := (le_add_of_nonneg_right hnonneg).trans_lt hin
        rw [min_eq_right hlt.le, min_eq_right hin.le]
        rfl
      next hout =>
        have hle := not_lt.mp hout
        rw [min_eq_left hle]
        split
        next hlt =>
          show min limit (t.pos i) + t.delta (cut (limit - t.pos i) a) = limit
          rw [hcut, min_eq_right hlt.le, add_sub_cancel]
        next hge =>
          show min limit (t.pos i) + 0 = limit
          rw [add_zero, min_eq_left (not_lt.mp hge)]

/-- Every item is one of the track's, or the last one and cut. -/
theorem item_upTo {i : ℕ} {a : α} (hnonneg : t.NonNeg)
    (h : (t.upTo limit cut).item i = some a) :
    t.item i = some a ∨ ((t.upTo limit cut).item (i + 1) = none ∧
      ∃ b, t.item i = some b ∧ 0 < limit - t.pos i ∧ limit - t.pos i ≤ t.delta b ∧
        a = cut (limit - t.pos i) b) := by
  obtain ⟨b, hb, hitem⟩ := Option.bind_eq_some_iff.mp h
  split at hitem
  next => exact Or.inl (hb.trans hitem)
  next hout =>
    split at hitem
    next hin =>
      have hle := not_lt.mp hout
      refine Or.inr ⟨?_, b, hb, sub_pos.mpr hin, ?_, (Option.some.inj hitem).symm⟩
      · have hnext : t.pos (i + 1) = t.pos i + t.delta b := by
          rw [pos, pause, hb]
          rfl
        refine Option.bind_eq_none_iff.mpr fun c hc => ?_
        rw [hnext, if_neg (not_lt.mpr (hle.trans (le_add_of_nonneg_right (hnonneg _ c hc)))),
          if_neg hout]
      · rw [sub_le_iff_le_add, add_comm]
        exact hle
    next => cases hitem

end Limit

end Track

end Lua2SC.Timeline

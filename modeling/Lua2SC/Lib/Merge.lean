import Lua2SC.Lib.Timeline

/-!
# Tracks played together

Some tracks are merged into one sequence. At every turn each track has a place, the
number of its items that have been taken; the next item is the one that stands
earliest, on the track of the lower number where two stand at the same position
(`turn`). The item's position is the `time` of the turn.

Where no pause is negative, the turns come in the order of time and track
(`turn_le_succ`). The steps between the times add up to the position on the
item's own track (`sum_steps`), and an item's place is the number of earlier turns of
its track (`places_eq_card`).
-/

namespace Lua2SC.Timeline

variable {α R : Type*}

section Earliest

variable [LinearOrder R] {key : ℕ → R}

/-- The first of the least keys below a number. -/
def earliest (key : ℕ → R) : ℕ → ℕ
  | 0 => 0
  | len + 1 => if key len < key (earliest key len) then len else earliest key len

theorem earliest_lt {len : ℕ} (h : 0 < len) : earliest key len < len := by
  induction len with
  | zero => cases h
  | succ len ih =>
    rw [earliest]
    split
    · exact Nat.lt_succ_self len
    · rcases Nat.eq_zero_or_pos len with rfl | hpos
      · exact Nat.zero_lt_one
      · exact (ih hpos).trans (Nat.lt_succ_self len)

/-- No key is before it. -/
theorem earliest_le (key : ℕ → R) {len k : ℕ} (hk : k < len) : key (earliest key len) < key k ∨
    (key (earliest key len) = key k ∧ earliest key len ≤ k) := by
  induction len with
  | zero => cases hk
  | succ len ih =>
    rw [earliest]
    rcases Nat.lt_succ_iff_lt_or_eq.mp hk with hlt | rfl
    · split
      next hless =>
        rcases ih hlt with h | ⟨h, -⟩
        · exact Or.inl (hless.trans h)
        · exact Or.inl (h ▸ hless)
      next => exact ih hlt
    · split
      next => exact Or.inr ⟨rfl, le_rfl⟩
      next hless =>
        rcases (not_lt.mp hless).lt_or_eq with h | h
        · exact Or.inl h
        · refine Or.inr ⟨h, ?_⟩
          rcases Nat.eq_zero_or_pos k with rfl | hpos
          · exact le_rfl
          · exact (earliest_lt hpos).le

/-- It is the only one that no key is before. -/
theorem earliest_unique {len k : ℕ} (hk : k < len)
    (h : ∀ m < len, key k < key m ∨ (key k = key m ∧ k ≤ m)) : earliest key len = k := by
  have hpos : 0 < len := Nat.zero_lt_of_lt hk
  have hfirst : key (earliest key len) < key k ∨
      (key (earliest key len) = key k ∧ earliest key len ≤ k) := earliest_le key hk
  have hsecond := h (earliest key len) (earliest_lt hpos)
  rcases hfirst with hlt | ⟨heq, hle⟩ <;> rcases hsecond with hlt' | ⟨heq', hle'⟩
  · exact absurd hlt (lt_asymm hlt')
  · exact absurd heq' hlt.ne'
  · exact absurd heq.symm hlt'.ne
  · exact le_antisymm hle hle'

end Earliest

section Merge

variable [AddCommMonoid R] [LinearOrder R] (track : ℕ → Track α R) (len : ℕ)

/-- How many items of each track have been taken before turn `j`. -/
def places : ℕ → ℕ → ℕ
  | 0 => fun _ => 0
  | j + 1 =>
    let k := earliest (fun k => (track k).pos (places j k)) len
    Function.update (places j) k (places j k + 1)

/-- The track of turn `j`. -/
def turn (j : ℕ) : ℕ := earliest (fun k => (track k).pos (places track len j k)) len

/-- The time of turn `j`. -/
def time (j : ℕ) : R := (track (turn track len j)).pos (places track len j (turn track len j))

variable {track len}

theorem places_succ (j k : ℕ) : places track len (j + 1) k =
    if k = turn track len j then places track len j k + 1 else places track len j k := by
  show Function.update (places track len j) (turn track len j) _ k = _
  rw [Function.update_apply]
  split
  next h => rw [h]; rfl
  next => rfl

/-- The place of an item is the number of turns that its track has had. -/
theorem places_eq_card (j k : ℕ) :
    places track len j k = ((Finset.range j).filter fun i => turn track len i = k).card := by
  induction j with
  | zero => rfl
  | succ j ih =>
    rw [places_succ, ih, Finset.range_add_one, Finset.filter_insert]
    by_cases h : turn track len j = k
    · rw [if_pos h.symm, if_pos h, Finset.card_insert_of_notMem (by simp)]
    · rw [if_neg (Ne.symm h), if_neg h]

variable [IsOrderedAddMonoid R]

/-- **The turns are in order** of time and track. -/
theorem turn_le_succ (h : ∀ k < len, (track k).NonNeg) (hlen : 0 < len) (j : ℕ) :
    time track len j < time track len (j + 1) ∨
      (time track len j = time track len (j + 1) ∧
        turn track len j ≤ turn track len (j + 1)) := by
  have hturn : turn track len (j + 1) < len := earliest_lt hlen
  have hfirst : time track len j < (track (turn track len (j + 1))).pos
        (places track len j (turn track len (j + 1))) ∨
      (time track len j = (track (turn track len (j + 1))).pos
        (places track len j (turn track len (j + 1))) ∧
        turn track len j ≤ turn track len (j + 1)) :=
    earliest_le (fun k => (track k).pos (places track len j k)) hturn
  rw [time, time, places_succ]
  split
  next hsame =>
    rw [hsame]
    have hnonneg := h (turn track len j) (earliest_lt hlen)
    rcases (hnonneg.pos_le_succ (places track len j (turn track len j))).lt_or_eq with hlt | heq
    · exact Or.inl hlt
    · exact Or.inr ⟨heq, le_rfl⟩
  next => exact hfirst

end Merge

/-- **The steps between the times** add up to the position of the item. -/
theorem sum_steps [AddCommGroup R] [LinearOrder R] {track : ℕ → Track α R} {len : ℕ}
    (hstart : ∀ k, (track k).start = 0) (j : ℕ) :
    ∑ i ∈ Finset.range j, (time track len (i + 1) - time track len i) = time track len j := by
  rw [Finset.sum_range_sub]
  have hzero : time track len 0 = 0 := hstart _
  rw [hzero, sub_zero]

end Lua2SC.Timeline

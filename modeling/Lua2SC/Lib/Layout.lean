import Mathlib

/-!
# Items laid out one behind the other

Items of any widths stand one behind the other on the places `0, 1, 2, …`.
`offset w items i` is the place where item `i` begins: the widths of the items
before it. Every place below the total width lies in exactly one item
(`existsUnique_item`), and where every item contributes a list as long as it
is wide, its list is found in the concatenation at its offset
(`flatMap_slice`).
-/

namespace Lua2SC.Layout

variable {α β : Type*} (w : α → ℕ)

/-- The width of all items together. -/
def total (items : List α) : ℕ := (items.map w).sum

/-- Where an item begins. -/
def offset (items : List α) (i : ℕ) : ℕ := total w (items.take i)

variable {w}

@[simp] theorem total_nil : total w [] = 0 := rfl

@[simp] theorem total_cons (a : α) (items : List α) : total w (a :: items) = w a + total w items := by
  simp [total]

@[simp] theorem total_append (items items' : List α) :
    total w (items ++ items') = total w items + total w items' := by
  simp [total]

@[simp] theorem offset_zero (items : List α) : offset w items 0 = 0 := by simp [offset]

@[simp] theorem offset_length (items : List α) : offset w items items.length = total w items := by
  simp [offset]

@[simp] theorem offset_cons_succ (a : α) (items : List α) (i : ℕ) :
    offset w (a :: items) (i + 1) = w a + offset w items i := by
  simp [offset]

/-- The next item begins where this one ends. -/
theorem offset_succ {items : List α} {i : ℕ} {a : α} (h : items[i]? = some a) :
    offset w items (i + 1) = offset w items i + w a := by
  unfold offset
  obtain ⟨hi, rfl⟩ := List.getElem?_eq_some_iff.mp h
  rw [List.take_succ_eq_append_getElem hi, total_append, total_cons, total_nil, Nat.add_zero]

theorem offset_le_total (items : List α) (i : ℕ) : offset w items i ≤ total w items := by
  conv_rhs => rw [← List.take_append_drop i items, total_append]
  exact Nat.le_add_right _ _

/-- Items of the same widths begin at the same places. -/
theorem offset_congr {w' : β → ℕ} {items : List α} {items' : List β}
    (h : items.map w = items'.map w') (i : ℕ) : offset w items i = offset w' items' i := by
  unfold offset total
  rw [List.map_take, List.map_take, h]

/-- Later items begin later. -/
theorem offset_mono (items : List α) : Monotone (offset w items) := by
  intro i j hij
  unfold offset
  conv_rhs => rw [← List.take_append_drop i (items.take j), total_append, List.take_take,
    min_eq_left hij]
  exact Nat.le_add_right _ _

/-- **Every place lies in exactly one item.** -/
theorem existsUnique_item {items : List α} {k : ℕ} (hk : k < total w items) :
    ∃! i, i < items.length ∧ offset w items i ≤ k ∧ k < offset w items (i + 1) := by
  have hexists : ∃ i, i < items.length ∧ offset w items i ≤ k ∧ k < offset w items (i + 1) := by
    induction items generalizing k with
    | nil => exact absurd hk (Nat.not_lt_zero k)
    | cons a items ih =>
      rw [total_cons] at hk
      rcases Nat.lt_or_ge k (w a) with hlt | hge
      · exact ⟨0, Nat.succ_pos _, by simp, by simpa using hlt⟩
      · obtain ⟨i, hi, hle, hlt⟩ := ih (k := k - w a) (by omega)
        refine ⟨i + 1, Nat.succ_lt_succ hi, ?_, ?_⟩
        · rw [offset_cons_succ]; omega
        · rw [offset_cons_succ]; omega
  obtain ⟨i, hi, hle, hlt⟩ := hexists
  refine ⟨i, ⟨hi, hle, hlt⟩, ?_⟩
  rintro j ⟨-, hle', hlt'⟩
  -- two items that both have the place would each end before the other begins
  rcases Nat.lt_trichotomy j i with hji | hji | hij
  · have hmono := offset_mono (w := w) items (show j + 1 ≤ i from hji)
    omega
  · exact hji
  · have hmono := offset_mono (w := w) items (show i + 1 ≤ j from hij)
    omega

/-- The list of an item stands at its offset. -/
theorem flatMap_slice (f : α → List β) {items : List α} {i : ℕ} {a : α} (h : items[i]? = some a) :
    ((items.flatMap f).drop (offset (fun a => (f a).length) items i)).take (f a).length = f a := by
  induction items generalizing i with
  | nil => cases h
  | cons b items ih =>
    rw [List.flatMap_cons]
    cases i with
    | zero =>
      obtain rfl := Option.some.inj h
      simp
    | succ i =>
      rw [offset_cons_succ, ← List.drop_drop, List.drop_left]
      exact ih h

/-- The concatenation is as long as the items are wide. -/
theorem length_flatMap (f : α → List β) (items : List α) :
    (items.flatMap f).length = total (fun a => (f a).length) items := by
  rw [List.length_flatMap, total]

end Lua2SC.Layout

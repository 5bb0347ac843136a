import Mathlib

/-!
# Difference equations as power series

A recursive filter makes each sample from the input and from the samples before, weighted by
`b` and by `a` from the second weight on (`Feeds`). Read as power series in the delay by one
sample, what it makes satisfies `a * y = b * x` but for the first weight of `a`, which the
recursion has no use for and takes to be one (`Feeds.mul_eq`).
-/

namespace Lua2SC.Feedback

open PowerSeries

variable {R : Type*}

section Lists

variable [Semiring R]

/-- The power series of a list of coefficients. -/
noncomputable def series (t : List R) : R⟦X⟧ := mk fun i => t.getD i 0

@[simp] theorem coeff_series (t : List R) (i : ℕ) : coeff i (series t) = t.getD i 0 :=
  coeff_mk _ _

theorem series_eq_zero_iff {t : List R} : series t = 0 ↔ ∀ c ∈ t, c = 0 := by
  constructor
  · intro h c hc
    obtain ⟨i, hi, rfl⟩ := List.getElem_of_mem hc
    have hcoeff := congrArg (coeff i) h
    rw [coeff_series, List.getD_eq_getElem _ _ hi, map_zero] at hcoeff
    exact hcoeff
  · intro h
    ext i
    rw [coeff_series, map_zero]
    by_cases hi : i < t.length
    · rw [List.getD_eq_getElem _ _ hi]
      exact h _ (List.getElem_mem hi)
    · exact List.getD_eq_default _ _ (not_lt.mp hi)

/-- What is beyond the list does not count. -/
theorem sum_getD (t : List R) {m : ℕ} {g : ℕ → R} (hg : ∀ j, m ≤ j → g j = 0) :
    ∑ j ∈ Finset.range t.length, t.getD j 0 * g j = ∑ j ∈ Finset.range m, t.getD j 0 * g j := by
  have hlist : ∀ j, t.length ≤ j → t.getD j 0 * g j = 0 := by
    intro j hj
    rw [List.getD_eq_default _ _ hj, zero_mul]
  have hrange : ∀ j, m ≤ j → t.getD j 0 * g j = 0 := by
    intro j hj
    rw [hg j hj, mul_zero]
  rcases le_total t.length m with hle | hle
  · refine Finset.sum_subset (Finset.range_mono hle) fun j _ hj => hlist j ?_
    exact not_lt.mp fun hlt => hj (Finset.mem_range.mpr hlt)
  · refine (Finset.sum_subset (Finset.range_mono hle) fun j _ hj => hrange j ?_).symm
    exact not_lt.mp fun hlt => hj (Finset.mem_range.mpr hlt)

/-- A sample of the input, weighted. -/
theorem coeff_series_mul (b x : List R) (n : ℕ) :
    coeff n (series b * series x) =
      ∑ j ∈ Finset.range (n + 1), b.getD j 0 * x.getD (n - j) 0 := by
  rw [coeff_mul, Finset.Nat.sum_antidiagonal_eq_sum_range_succ fun i j =>
    coeff i (series b) * coeff j (series x)]
  simp only [coeff_series]

end Lists

section Ring

variable [CommRing R]

/-- Sample by sample: the input weighted by `b`, less what was made before weighted by `a`. -/
def Feeds (a b x y : R⟦X⟧) : Prop :=
  ∀ n, coeff n y =
    coeff n (b * x) - ∑ j ∈ Finset.range n, coeff (j + 1) a * coeff (n - (j + 1)) y

variable {a b x y : R⟦X⟧}

/-- The first weight of `a` is taken to be one. -/
theorem Feeds.mul_eq (h : Feeds a b x y) :
    a * y = b * x + (C (constantCoeff a) - 1) * y := by
  ext n
  have hmul : coeff n (a * y) = ∑ j ∈ Finset.range n, coeff (j + 1) a * coeff (n - (j + 1)) y +
      constantCoeff a * coeff n y := by
    rw [coeff_mul, Finset.Nat.sum_antidiagonal_eq_sum_range_succ fun i j => coeff i a * coeff j y,
      Finset.sum_range_succ', coeff_zero_eq_constantCoeff_apply, Nat.sub_zero]
  rw [map_add, sub_mul, one_mul, map_sub, coeff_C_mul, hmul, h n]
  ring

variable [IsDomain R]

/-- Nothing comes out where nothing comes in. -/
theorem Feeds.eq_zero_iff (h : Feeds a b x y) : y = 0 ↔ b * x = 0 := by
  have heq := h.mul_eq
  constructor
  · intro hy
    rw [hy, mul_zero, mul_zero, add_zero] at heq
    exact heq.symm
  · intro hbx
    -- with one for its first weight, what is left of `a` is not zero
    have hprod : (a - (C (constantCoeff a) - 1)) * y = 0 := by
      linear_combination heq + hbx
    have hne : a - (C (constantCoeff a) - 1) ≠ 0 := by
      intro hzero
      have hconst : constantCoeff (a - (C (constantCoeff a) - 1)) = 1 := by simp
      rw [hzero, map_zero] at hconst
      exact zero_ne_one hconst
    exact (mul_eq_zero.mp hprod).resolve_left hne

/-- **The difference equation** holds where the first weight is one, and of no output. -/
theorem Feeds.mul_eq_iff (h : Feeds a b x y) :
    a * y = b * x ↔ constantCoeff a = 1 ∨ b * x = 0 := by
  rw [← h.eq_zero_iff, h.mul_eq, add_eq_left, mul_eq_zero, sub_eq_zero]
  refine or_congr_left ⟨fun hC => ?_, fun hone => ?_⟩
  · have hconst := congrArg constantCoeff hC
    simpa using hconst
  · rw [hone, map_one]

end Ring

section Loop

/-- A loop that appends to the list it reads makes a sequence, each value from those before. -/
theorem exists_loop {α : Type*} (next : List α → ℕ → α) : ∃ y : ℕ → α,
    (∀ n, (List.range' 1 n).foldl (fun res i => res ++ [next res i]) [] = (List.range n).map y) ∧
      ∀ n, y n = next ((List.range n).map y) (n + 1) := by
  let made : ℕ → List α := fun n => (List.range' 1 n).foldl (fun res i => res ++ [next res i]) []
  have hmade : ∀ n, made n = (List.range n).map fun i => next (made i) (i + 1) := by
    intro n
    induction n with
    | zero => rfl
    | succ n ih =>
      have hstep : made (n + 1) = made n ++ [next (made n) (1 + n)] := by
        simp only [made, List.range'_1_concat, List.foldl_append, List.foldl_cons, List.foldl_nil]
      rw [hstep, List.range_succ, List.map_append, ← ih, Nat.add_comm 1 n]
      rfl
  refine ⟨fun i => next (made i) (i + 1), hmade, fun n => ?_⟩
  rw [← hmade]

end Loop

end Lua2SC.Feedback

import Mathlib

/-!
# Between the values of a sequence

`interpolate f` draws straight lines between the values of a sequence over the integers, and
`degreeAt f k` goes the way back on the line from `f k` to `f (k + 1)`. For a sequence that
goes up the two undo each other, and if it goes up and down without bound each value is on
one of the lines (`exists_step`).

`Periodic f n c` sequences gain `c` every `n` steps, like the notes of a scale over the
octaves.
-/

namespace Lua2SC.Interpolation

variable {R : Type*} [Field R] [LinearOrder R] [IsStrictOrderedRing R] [FloorRing R]

/-- The value at `x`, on the line from the value before to the value after. -/
def interpolate (f : ℤ → R) (x : R) : R := f ⌊x⌋ + (f (⌊x⌋ + 1) - f ⌊x⌋) * Int.fract x

/-- Where the line from `f k` to `f (k + 1)` has the value `y`. -/
def degreeAt (f : ℤ → R) (k : ℤ) (y : R) : R := k + (y - f k) / (f (k + 1) - f k)

variable {f : ℤ → R}

theorem interpolate_intCast (f : ℤ → R) (k : ℤ) : interpolate f k = f k := by
  rw [interpolate, Int.floor_intCast, Int.fract_intCast, mul_zero, add_zero]

omit [FloorRing R] in
theorem step_pos (hf : StrictMono f) (k : ℤ) : 0 < f (k + 1) - f k :=
  sub_pos.mpr (hf (lt_add_one k))

/-- The value at `x` is on the line over `⌊x⌋`. -/
theorem interpolate_mem (hf : StrictMono f) (x : R) :
    f ⌊x⌋ ≤ interpolate f x ∧ interpolate f x < f (⌊x⌋ + 1) := by
  have hstep := step_pos hf ⌊x⌋
  constructor
  · have hnonneg := mul_nonneg hstep.le (Int.fract_nonneg x)
    rw [interpolate]
    linarith
  · have hlt := mul_lt_mul_of_pos_left (Int.fract_lt_one x) hstep
    rw [interpolate]
    linarith

theorem degreeAt_interpolate (hf : StrictMono f) (x : R) :
    degreeAt f ⌊x⌋ (interpolate f x) = x := by
  have hne := (step_pos hf ⌊x⌋).ne'
  rw [degreeAt, interpolate, add_sub_cancel_left, mul_div_cancel_left₀ _ hne, Int.floor_add_fract]

theorem interpolate_degreeAt (hf : StrictMono f) {k : ℤ} {y : R} (hlo : f k ≤ y)
    (hhi : y < f (k + 1)) : interpolate f (degreeAt f k y) = y := by
  have hstep := step_pos hf k
  have hnonneg : 0 ≤ (y - f k) / (f (k + 1) - f k) := div_nonneg (sub_nonneg.mpr hlo) hstep.le
  have hlt : (y - f k) / (f (k + 1) - f k) < 1 := by
    rw [div_lt_one hstep]
    linarith
  have hfloor : ⌊degreeAt f k y⌋ = k := by
    rw [degreeAt, Int.floor_intCast_add, Int.floor_eq_zero_iff.mpr ⟨hnonneg, hlt⟩, add_zero]
  have hfract : Int.fract (degreeAt f k y) = (y - f k) / (f (k + 1) - f k) := by
    rw [degreeAt, Int.fract_intCast_add, Int.fract_eq_self.mpr ⟨hnonneg, hlt⟩]
  rw [interpolate, hfloor, hfract, mul_div_cancel₀ _ hstep.ne']
  ring

/-- `f` gains `c` every `n` steps. -/
def Periodic (f : ℤ → R) (n : ℤ) (c : R) : Prop := ∀ k, f (k + n) = f k + c

omit [FloorRing R] in
theorem Periodic.mul {n : ℤ} {c : R} (h : Periodic f n c) (k j : ℤ) :
    f (k + j * n) = f k + j * c := by
  induction j using Int.induction_on with
  | zero => simp
  | succ j ih =>
    have hstep := h (k + j * n)
    rw [show k + (j + 1 : ℤ) * n = k + j * n + n by ring, hstep, ih]
    push_cast
    ring
  | pred j ih =>
    have hstep := h (k + (-j - 1) * n)
    rw [show k + (-j - 1) * n + n = k + -j * n by ring, ih] at hstep
    push_cast at hstep ⊢
    linarith

/-- A sequence with a gain goes beyond every value. -/
theorem Periodic.exists_step (hf : StrictMono f) {n : ℤ} {c : R} (h : Periodic f n c) (hc : 0 < c)
    (y : R) : ∃ k, f k ≤ y ∧ y < f (k + 1) := by
  -- the values at the multiples of `n` are those of a line
  have hbelow : f (0 + ⌊(y - f 0) / c⌋ * n) ≤ y := by
    rw [h.mul]
    have hle := (le_div_iff₀ hc).mp (Int.floor_le ((y - f 0) / c))
    linarith
  have habove : y < f (0 + (⌊(y - f 0) / c⌋ + 1) * n) := by
    rw [h.mul]
    have hlt := (div_lt_iff₀ hc).mp (Int.lt_floor_add_one ((y - f 0) / c))
    push_cast
    linarith
  obtain ⟨k, hk, hmax⟩ := Int.exists_greatest_of_bdd (P := fun k => f k ≤ y)
    ⟨_, fun k hk => (hf.lt_iff_lt.mp (hk.trans_lt habove)).le⟩ ⟨_, hbelow⟩
  refine ⟨k, hk, lt_of_not_ge fun hle => ?_⟩
  have := hmax (k + 1) hle
  omega

end Lua2SC.Interpolation

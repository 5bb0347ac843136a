import Mathlib.Data.Int.Log
import Mathlib.Data.Rat.Floor
import Mathlib.Tactic.FieldSimp
import Mathlib.Tactic.Linarith
import Mathlib.Tactic.Ring

/-!
# Rounding to a floating-point format

A format has a base, a number of digits and a smallest exponent. `nearest` rounds a
number to it: to the multiples of the unit in the last place that the number's own
magnitude asks for, to the even one of two.

What is near enough to a number of the format is rounded to that number
(`nearest_eq_of_near`): nearer than half of `x / base ^ digits`, which is half of the
smallest gap that `x` can have beside it. A second format whose digits are worth more
than that writes every number of the first so that it is read back.
-/

namespace Lua2SC.Rounding

/-- The nearest integer, the even one of two. -/
def roundEven (q : ℚ) : ℤ :=
  let r := q - ⌊q⌋
  if r < 1 / 2 then ⌊q⌋ else if 1 / 2 < r then ⌊q⌋ + 1 else ⌊q⌋ + ⌊q⌋ % 2

theorem abs_roundEven_sub (q : ℚ) : |(roundEven q : ℚ) - q| ≤ 1 / 2 := by
  have hlo := Int.floor_le q
  have hhi := Int.lt_floor_add_one q
  unfold roundEven
  dsimp only
  split
  next h =>
    rw [abs_le]
    constructor <;> linarith
  next h =>
    split
    next h' =>
      push_cast
      rw [abs_le]
      constructor <;> linarith
    next h' =>
      -- halfway: one of the two neighbours, both half a unit off
      have hhalf : q - ⌊q⌋ = 1 / 2 := le_antisymm (not_lt.mp h') (not_lt.mp h)
      rcases Int.emod_two_eq_zero_or_one ⌊q⌋ with hmod | hmod
      · rw [hmod, abs_le]
        push_cast
        constructor <;> linarith
      · rw [hmod, abs_le]
        push_cast
        constructor <;> linarith

theorem roundEven_eq {q : ℚ} {n : ℤ} (h : |q - n| < 1 / 2) : roundEven q = n := by
  have hnear := abs_roundEven_sub q
  have hlt : |((roundEven q - n : ℤ) : ℚ)| < 1 := by
    push_cast
    calc |(roundEven q : ℚ) - n| = |((roundEven q : ℚ) - q) + (q - n)| := by ring_nf
      _ ≤ |(roundEven q : ℚ) - q| + |q - n| := abs_add_le _ _
      _ < 1 := by linarith
  rw [← Int.cast_abs] at hlt
  have hzero : |roundEven q - n| < 1 := by exact_mod_cast hlt
  exact sub_eq_zero.mp (Int.abs_lt_one_iff.mp hzero)

/-! ## Multiples of a unit -/

/-- `x` is so many units. -/
def Multiple (u x : ℚ) : Prop := ∃ j : ℤ, x = j * u

theorem Multiple.zpow {b : ℕ} (hb : 1 < b) {e f : ℤ} (hef : e ≤ f) :
    Multiple ((b : ℚ) ^ e) ((b : ℚ) ^ f) := by
  have hb0 : (b : ℚ) ≠ 0 := by exact_mod_cast (by omega : b ≠ 0)
  obtain ⟨n, hn⟩ := Int.eq_ofNat_of_zero_le (sub_nonneg.mpr hef)
  refine ⟨(b : ℤ) ^ n, ?_⟩
  push_cast
  rw [← zpow_natCast, ← hn, ← zpow_add₀ hb0]
  congr 1
  omega

theorem Multiple.mul {u x : ℚ} (h : Multiple u x) (m : ℤ) : Multiple u (m * x) := by
  obtain ⟨j, rfl⟩ := h
  refine ⟨m * j, ?_⟩
  push_cast
  ring

/-- Different multiples are a unit apart. -/
theorem Multiple.add_le {u x y : ℚ} (hu : 0 < u) (hx : Multiple u x) (hy : Multiple u y)
    (h : x < y) : x + u ≤ y := by
  obtain ⟨i, rfl⟩ := hx
  obtain ⟨j, rfl⟩ := hy
  have hij : (i : ℚ) < j := lt_of_mul_lt_mul_right h hu.le
  have hsucc : (i : ℚ) + 1 ≤ j := by exact_mod_cast hij
  calc (i : ℚ) * u + u = (i + 1) * u := by ring
    _ ≤ j * u := mul_le_mul_of_nonneg_right hsucc hu.le

/-! ## Formats -/

structure Fmt where
  base : ℕ
  digits : ℕ
  emin : ℤ
  base_gt : 1 < base

namespace Fmt

variable (F : Fmt)

/-- The exponent of the last digit that numbers as large as `y` have. -/
def exponent (y : ℚ) : ℤ := max F.emin (Int.log F.base y - F.digits + 1)

/-- The number of the format that is nearest. -/
def nearest (y : ℚ) : ℚ :=
  roundEven (y / (F.base : ℚ) ^ F.exponent y) * (F.base : ℚ) ^ F.exponent y

/-- The non-negative numbers of the format. -/
def Mem (x : ℚ) : Prop :=
  ∃ (m : ℕ) (e : ℤ), m < F.base ^ F.digits ∧ F.emin ≤ e ∧ x = m * (F.base : ℚ) ^ e

variable {F} {x y : ℚ}

theorem base_pos (F : Fmt) : (0 : ℚ) < F.base := by exact_mod_cast Nat.zero_lt_of_lt F.base_gt

theorem unit_pos (F : Fmt) (e : ℤ) : (0 : ℚ) < (F.base : ℚ) ^ e := zpow_pos F.base_pos e

/-- What the digits of a number of the format say about its magnitude. -/
theorem Mem.spec (h : F.Mem x) (hx : 0 < x) : 1 ≤ F.digits ∧ F.emin ≤ Int.log F.base x ∧
    Multiple ((F.base : ℚ) ^ F.exponent x) x := by
  obtain ⟨m, e, hm, he, rfl⟩ := h
  have hm0 : 0 < m := by
    rcases Nat.eq_zero_or_pos m with rfl | hpos
    · simp at hx
    · exact hpos
  have hdigits : 1 ≤ F.digits := by
    by_contra hzero
    rw [Nat.lt_one_iff.mp (Nat.lt_of_not_le hzero), pow_zero] at hm
    omega
  have hge : (F.base : ℚ) ^ e ≤ m * (F.base : ℚ) ^ e :=
    le_mul_of_one_le_left (F.unit_pos e).le (by exact_mod_cast hm0)
  have hlt : (m : ℚ) * (F.base : ℚ) ^ e < (F.base : ℚ) ^ (F.digits + e) := by
    rw [zpow_add₀ F.base_pos.ne', zpow_natCast]
    exact mul_lt_mul_of_pos_right (by exact_mod_cast hm) (F.unit_pos e)
  have hlog := (Int.lt_zpow_iff_log_lt F.base_gt hx).mp hlt
  refine ⟨hdigits, he.trans ((Int.zpow_le_iff_le_log F.base_gt hx).mp hge), ?_⟩
  have hexp : F.exponent (m * (F.base : ℚ) ^ e) ≤ e := max_le he (by omega)
  have hmul := (Multiple.zpow F.base_gt hexp).mul m
  push_cast at hmul
  exact hmul

/-- A unit is worth more than the last digit of what is below the next power. -/
theorem lt_zpow_exponent {k : ℤ} (hxk : x ≤ (F.base : ℚ) ^ (k + 1))
    (hk : k ≤ Int.log F.base y) : x / (F.base : ℚ) ^ F.digits ≤ (F.base : ℚ) ^ F.exponent y := by
  have hle : k + 1 - F.digits ≤ F.exponent y := le_max_of_le_right (by omega)
  calc x / (F.base : ℚ) ^ F.digits
      ≤ (F.base : ℚ) ^ (k + 1) / (F.base : ℚ) ^ F.digits :=
        div_le_div_of_nonneg_right hxk (pow_pos F.base_pos _).le
    _ = (F.base : ℚ) ^ (k + 1 - F.digits) := by
        rw [zpow_sub₀ F.base_pos.ne', zpow_natCast]
    _ ≤ (F.base : ℚ) ^ F.exponent y :=
        zpow_le_zpow_right₀ (by exact_mod_cast F.base_gt.le) hle

/-- **Near enough** to a number of the format is rounded to it. -/
theorem nearest_eq_of_near (h : F.Mem x) (hx : 0 < x) (hy : 0 < y)
    (hnear : |y - x| < x / (F.base : ℚ) ^ F.digits / 2) : F.nearest y = x := by
  obtain ⟨hdigits, hemin, hmul⟩ := h.spec hx
  have hu := F.unit_pos (F.exponent y)
  have hbelow := Int.zpow_log_le_self F.base_gt hx
  have habove := Int.lt_zpow_succ_log_self F.base_gt x
  have hsmall : 0 < x / (F.base : ℚ) ^ F.digits := div_pos hx (pow_pos F.base_pos _)
  obtain ⟨hlo, hhi⟩ := abs_lt.mp hnear
  -- it is a multiple of the unit that `y` is rounded to, and less than half of it away
  suffices hgoal : Multiple ((F.base : ℚ) ^ F.exponent y) x ∧
      x / (F.base : ℚ) ^ F.digits ≤ (F.base : ℚ) ^ F.exponent y by
    obtain ⟨⟨j, hj⟩, hunit⟩ := hgoal
    have hhalf : |y / (F.base : ℚ) ^ F.exponent y - j| < 1 / 2 := by
      have hdiv : y / (F.base : ℚ) ^ F.exponent y - j = (y - x) / (F.base : ℚ) ^ F.exponent y := by
        rw [sub_div, hj, mul_div_assoc, div_self hu.ne', mul_one]
      rw [hdiv, abs_div, abs_of_pos hu, div_lt_iff₀ hu]
      linarith
    unfold nearest
    rw [roundEven_eq hhalf]
    exact hj.symm
  have hgap : x / (F.base : ℚ) ^ F.digits ≤ (F.base : ℚ) ^ F.exponent x :=
    lt_zpow_exponent habove.le le_rfl
  have hux := F.unit_pos (F.exponent x)
  rcases lt_trichotomy (Int.log F.base x) (Int.log F.base y) with hlt | heq | hgt
  · -- the next power would lie between them
    have hpow : Multiple ((F.base : ℚ) ^ F.exponent x) ((F.base : ℚ) ^ (Int.log F.base x + 1)) :=
      Multiple.zpow F.base_gt (max_le (by omega) (by omega))
    have hstep := Multiple.add_le hux hmul hpow habove
    have hy' : (F.base : ℚ) ^ (Int.log F.base x + 1) ≤ y :=
      (Int.zpow_le_iff_le_log F.base_gt hy).mpr hlt
    linarith
  · have hexp : F.exponent y = F.exponent x := by
      unfold exponent
      rw [heq]
    rw [hexp]
    exact ⟨hmul, hgap⟩
  · have hylt : y < (F.base : ℚ) ^ Int.log F.base x :=
      (Int.lt_zpow_iff_log_lt F.base_gt hy).mpr hgt
    -- only a power itself has something this near in the decade below
    have hpower : x = (F.base : ℚ) ^ Int.log F.base x := by
      by_contra hne
      have hpow : Multiple ((F.base : ℚ) ^ F.exponent x) ((F.base : ℚ) ^ Int.log F.base x) :=
        Multiple.zpow F.base_gt (max_le hemin (by omega))
      have hstep := Multiple.add_le hux hpow hmul (lt_of_le_of_ne hbelow (Ne.symm hne))
      linarith
    have hdec : Int.log F.base x - 1 ≤ Int.log F.base y := by
      rw [← Int.zpow_le_iff_le_log F.base_gt hy, zpow_sub_one₀ F.base_pos.ne', ← hpower]
      have htwo : (2 : ℚ) ≤ F.base := by exact_mod_cast F.base_gt
      have hpow1 : (1 : ℚ) ≤ (F.base : ℚ) ^ F.digits := one_le_pow₀ (by linarith)
      have hxb : x * (F.base : ℚ)⁻¹ ≤ x / 2 := by
        rw [div_eq_mul_inv]
        exact mul_le_mul_of_nonneg_left (inv_anti₀ (by norm_num) htwo) hx.le
      have hdx : x / (F.base : ℚ) ^ F.digits ≤ x := div_le_self hx.le hpow1
      linarith
    constructor
    · have hpow : Multiple ((F.base : ℚ) ^ F.exponent y) ((F.base : ℚ) ^ Int.log F.base x) :=
        Multiple.zpow F.base_gt (max_le hemin (by omega))
      rw [← hpower] at hpow
      exact hpow
    · refine lt_zpow_exponent (k := Int.log F.base x - 1) ?_ hdec
      rw [sub_add_cancel]
      exact hpower.le

end Fmt

end Lua2SC.Rounding

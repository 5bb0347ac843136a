import Lua2SC.Lib.LuaOrder

/-!
# `playersppq.lua`: `swingtime`

Time is divided into cells of twice the quantum, and in each cell the middle is moved: the
first half of the cell should be stretched over the part `swing` of it, the second half over
the rest. The lines of `swingtime` do this for the default quantum, 1/2, where a cell has
length 1: they go from 0 to `swing` and from `2q - 1 + swing` to `2q`, with a `q` where the
other lengths are in units of the cell.

For a larger quantum there is a jump upwards in the middle, which does no harm to the order.
For a smaller one it is downwards, and time runs back (`swings_iff`).
-/

namespace Lua2SC.Swing

open Lua2SC.Lua

def swingtime (pos swing : ℚ) (qsw : Option ℚ) : ℚ :=
  let qsw := qsw.getD (1 / 2)
  let qsw2 := qsw * 2
  let ss := mod pos qsw2
  let ss2 := if ss > qsw then (1 - swing) * (ss / qsw - 2) + qsw2 else ss * swing / qsw
  pos - ss + ss2

/-- What a swing should do: keep the order of time and its cells. -/
structure Swings (q swing : ℚ) : Prop where
  mono : Monotone fun t => swingtime t swing (some q)
  cell : ∀ (k : ℤ) (t : ℚ), k * (2 * q) ≤ t → t < (k + 1) * (2 * q) →
    k * (2 * q) ≤ swingtime t swing (some q) ∧ swingtime t swing (some q) ≤ (k + 1) * (2 * q)
  fixed : ∀ k : ℤ, swingtime (k * (2 * q)) swing (some q) = k * (2 * q)

/-- What becomes of a place in a cell. -/
def bend (q swing ss : ℚ) : ℚ :=
  if ss > q then (1 - swing) * (ss / q - 2) + q * 2 else ss * swing / q

section

variable {q swing : ℚ} (hq : 0 < q)

include hq

/-- In a cell only the place in it counts. -/
theorem swingtime_cell {k : ℤ} {t : ℚ} (hlo : k * (2 * q) ≤ t) (hhi : t < (k + 1) * (2 * q)) :
    swingtime t swing (some q) = k * (2 * q) + bend q swing (t - k * (2 * q)) := by
  have hmod : mod t (q * 2) = t - k * (2 * q) := by
    rw [mul_comm q 2]
    exact mod_eq (by linarith) hlo hhi
  rw [swingtime, bend]
  simp only [Option.getD_some, hmod]
  ring

variable (h0 : 0 ≤ swing) (h1 : swing ≤ 1)

include h0 h1

/-- The place keeps to the cell when the quantum is large enough. -/
theorem bend_mem (hhalf : 1 / 2 ≤ q) {ss : ℚ} (hlo : 0 ≤ ss) (hhi : ss < 2 * q) :
    0 ≤ bend q swing ss ∧ bend q swing ss ≤ 2 * q := by
  unfold bend
  split
  next hgt =>
    have hone : 1 < ss / q := (one_lt_div hq).mpr hgt
    have htwo : ss / q < 2 := (div_lt_iff₀ hq).mpr hhi
    constructor
    · nlinarith
    · nlinarith
  next hle =>
    have hone : ss / q ≤ 1 := (div_le_one hq).mpr (not_lt.mp hle)
    have hnonneg : 0 ≤ ss / q := div_nonneg hlo hq.le
    rw [mul_div_right_comm]
    constructor
    · exact mul_nonneg hnonneg h0
    · nlinarith

/-- And the order of places. -/
theorem bend_mono (hhalf : 1 / 2 ≤ q) {ss ss' : ℚ} (hle : ss ≤ ss') :
    bend q swing ss ≤ bend q swing ss' := by
  have hdiv : ss / q ≤ ss' / q := div_le_div_of_nonneg_right hle hq.le
  unfold bend
  by_cases hss : ss > q
  · -- both in the second half
    rw [if_pos hss, if_pos (hss.trans_le hle)]
    have hmul := mul_le_mul_of_nonneg_left hdiv (sub_nonneg.mpr h1)
    linarith
  · rw [if_neg hss, mul_div_right_comm]
    by_cases hss' : ss' > q
    · -- over the middle: up to `swing`, and from there or above
      rw [if_pos hss']
      have hone : ss / q ≤ 1 := (div_le_one hq).mpr (not_lt.mp hss)
      have hone' : 1 < ss' / q := (one_lt_div hq).mpr hss'
      have hfirst : ss / q * swing ≤ swing := mul_le_of_le_one_left h0 hone
      have hsecond := mul_nonneg (sub_nonneg.mpr h1) (sub_nonneg.mpr hone'.le)
      linarith
    · rw [if_neg hss', mul_div_right_comm]
      exact mul_le_mul_of_nonneg_right hdiv h0

theorem swingtime_mem (hhalf : 1 / 2 ≤ q) {k : ℤ} {t : ℚ} (hlo : k * (2 * q) ≤ t)
    (hhi : t < (k + 1) * (2 * q)) :
    k * (2 * q) ≤ swingtime t swing (some q) ∧ swingtime t swing (some q) ≤ (k + 1) * (2 * q) := by
  have hss0 : 0 ≤ t - k * (2 * q) := by linarith
  have hss1 : t - k * (2 * q) < 2 * q := by linarith
  obtain ⟨hb0, hb1⟩ := bend_mem hq h0 h1 hhalf hss0 hss1
  rw [swingtime_cell hq hlo hhi]
  constructor
  · linarith
  · linarith

theorem swingtime_mono (hhalf : 1 / 2 ≤ q) {t t' : ℚ} (htt : t ≤ t') :
    swingtime t swing (some q) ≤ swingtime t' swing (some q) := by
  have hq2 : 0 < 2 * q := by linarith
  obtain ⟨k, hlo, hhi⟩ := exists_cell hq2 t
  obtain ⟨k', hlo', hhi'⟩ := exists_cell hq2 t'
  have hkk : k ≤ k' := by
    have hlt : (k : ℚ) < k' + 1 := lt_of_mul_lt_mul_right (by linarith) hq2.le
    exact_mod_cast Int.lt_add_one_iff.mp (by exact_mod_cast hlt)
  rcases hkk.eq_or_lt with rfl | hkk
  · have hle : t - k * (2 * q) ≤ t' - k * (2 * q) := by linarith
    have hmono := bend_mono hq h0 h1 hhalf hle
    rw [swingtime_cell hq hlo hhi, swingtime_cell hq hlo' hhi']
    linarith
  · -- a cell between the two ends
    have hstep : ((k : ℚ) + 1) * (2 * q) ≤ k' * (2 * q) :=
      mul_le_mul_of_nonneg_right (by exact_mod_cast hkk) hq2.le
    have hend := (swingtime_mem hq h0 h1 hhalf hlo hhi).2
    have hstart := (swingtime_mem hq h0 h1 hhalf hlo' hhi').1
    exact (hend.trans hstep).trans hstart

omit h1 in
/-- For a small quantum the middle of the cell goes to `swing`, and a place after it to less. -/
theorem swingtime_back (hlt : q < 1 / 2) :
    ∃ t, q ≤ t ∧ swingtime t swing (some q) < swingtime q swing (some q) := by
  have hmiddle : swingtime q swing (some q) = swing := by
    rw [swingtime_cell hq (k := 0) (by simp [hq.le]) (by norm_num; linarith), bend]
    norm_num
    rw [mul_div_right_comm, div_self hq.ne', one_mul]
  have hafter : swingtime (q + q * ((1 - 2 * q) / 2)) swing (some q) =
      (1 - swing) * ((1 - 2 * q) / 2 - 1) + q * 2 := by
    rw [swingtime_cell hq (k := 0) (by norm_num; nlinarith) (by norm_num; nlinarith), bend]
    norm_num
    rw [if_pos (by nlinarith)]
    have hdiv : (q + q * ((1 - 2 * q) / 2)) / q = 1 + (1 - 2 * q) / 2 := by
      rw [add_div, div_self hq.ne', mul_div_cancel_left₀ _ hq.ne']
    rw [hdiv]
    ring
  refine ⟨q + q * ((1 - 2 * q) / 2), by nlinarith, ?_⟩
  rw [hmiddle, hafter]
  have hneg : (q - 1 / 2) * (1 + swing) < 0 :=
    mul_neg_of_neg_of_pos (by linarith) (by linarith)
  linarith

/-- **Swing** works if and only if the quantum is at least the default. -/
theorem swings_iff : Swings q swing ↔ 1 / 2 ≤ q := by
  constructor
  · intro h
    by_contra hlt
    obtain ⟨t, hle, hback⟩ := swingtime_back hq h0 (not_le.mp hlt)
    exact absurd (h.mono hle) (not_le.mpr hback)
  · intro hhalf
    refine ⟨?_, ?_, ?_⟩
    · intro t t' htt
      exact swingtime_mono hq h0 h1 hhalf htt
    · intro k t hlo hhi
      exact swingtime_mem hq h0 h1 hhalf hlo hhi
    · intro k
      rw [swingtime_cell hq le_rfl (by linarith), sub_self, bend, if_neg (not_lt.mpr hq.le),
        zero_mul, zero_div, add_zero]

end

/-- A quantum of a beat. -/
theorem swings_beat : Swings 1 (1 / 3) :=
  (swings_iff (by norm_num) (by norm_num) (by norm_num)).mpr (by norm_num)

/-- With a quantum of 1/4 the time 1/4 goes to 1/2 and 5/16 to 1/8. -/
theorem swings_quarter :
    ¬ ∀ q swing : ℚ, 0 < q → 0 ≤ swing → swing ≤ 1 → Swings q swing := by
  intro h
  have hmono := (h (1 / 4) (1 / 2) (by norm_num) (by norm_num) (by norm_num)).mono
    (show (1 / 4 : ℚ) ≤ 5 / 16 by norm_num)
  have hfirst : swingtime (1 / 4) (1 / 2) (some (1 / 4)) = 1 / 2 := by decide +kernel
  have hsecond : swingtime (5 / 16) (1 / 2) (some (1 / 4)) = 1 / 8 := by decide +kernel
  simp only [hfirst, hsecond] at hmono
  norm_num at hmono

end Lua2SC.Swing

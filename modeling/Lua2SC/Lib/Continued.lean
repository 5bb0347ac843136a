import Mathlib.Algebra.Order.Floor.Ring
import Mathlib.RingTheory.Coprime.Basic
import Mathlib.Tactic.LinearCombination
import Mathlib.Tactic.Linarith
import Mathlib.Tactic.Ring

/-!
# Continued fractions by products of matrices

A number with the terms `a₁, a₂, …` is read off the product of the matrices `(aᵢ 1; 1 0)`: its first
column is the last fraction, its second column the one before. What the terms so far leave of the
number is its complete quotient (`Quotient`).

Among the fractions with a denominator below the next one, the last fraction is a best one: none
has a smaller `|b x - a|` (`Quotient.best`).
-/

namespace Lua2SC.Continued

/-- A partial product. -/
structure Product where
  m00 : ℤ
  m01 : ℤ
  m10 : ℤ
  m11 : ℤ
deriving DecidableEq, Repr

namespace Product

/-- No terms yet. -/
def one : Product := ⟨1, 0, 0, 1⟩

/-- One more term. -/
def push (m : Product) (a : ℤ) : Product :=
  ⟨m.m00 * a + m.m01, m.m00, m.m10 * a + m.m11, m.m10⟩

def det (m : Product) : ℤ := m.m00 * m.m11 - m.m01 * m.m10

theorem det_push (m : Product) (a : ℤ) : (m.push a).det = -m.det := by
  unfold det push
  ring

/-- A fraction of determinant one is reduced. -/
theorem isCoprime {m : Product} (h : m.det = 1 ∨ m.det = -1) : IsCoprime m.m00 m.m10 := by
  unfold det at h
  rcases h with h | h
  · exact ⟨m.m11, -m.m01, by linear_combination h⟩
  · exact ⟨-m.m11, m.m01, by linear_combination -h⟩

end Product

variable {K : Type} [Field K] [LinearOrder K] [IsStrictOrderedRing K]

/-- `ξ` is what the terms of `m` leave of `x`. -/
structure Quotient (m : Product) (x ξ : K) : Prop where
  value : m.m00 * ξ + m.m01 = x * (m.m10 * ξ + m.m11)
  det : m.det = 1 ∨ m.det = -1
  one_lt : 1 < ξ
  pos : 1 ≤ m.m10
  nonneg : 0 ≤ m.m11

namespace Quotient

variable {m : Product} {x ξ : K}

/-- The error of the next fraction has the other sign. -/
theorem error_push (h : Quotient m x ξ) (a : ℤ) :
    (m.push a).m10 * x - (m.push a).m00 = -(ξ - a) * (m.m10 * x - m.m00) := by
  have hvalue := h.value
  unfold Product.push
  push_cast
  linear_combination -hvalue

/-- The next complete quotient. -/
theorem push_value {m : Product} {a : ℤ}
    (hvalue : m.m00 * ξ + m.m01 = x * (m.m10 * ξ + m.m11)) (hξ : ξ ≠ a) :
    (m.push a).m00 * (1 / (ξ - a)) + (m.push a).m01 =
      x * ((m.push a).m10 * (1 / (ξ - a)) + (m.push a).m11) := by
  have hne : ξ - a ≠ 0 := sub_ne_zero.mpr hξ
  unfold Product.push
  push_cast
  field_simp
  linear_combination hvalue

variable [FloorRing K]

omit [IsStrictOrderedRing K] in
theorem one_le_floor (h : Quotient m x ξ) : 1 ≤ ⌊ξ⌋ := by
  rw [Int.le_floor]
  exact_mod_cast h.one_lt.le

omit [IsStrictOrderedRing K] in
theorem push_pos (h : Quotient m x ξ) : m.m10 + m.m11 ≤ (m.push ⌊ξ⌋).m10 := by
  have hfloor := h.one_le_floor
  have hpos := h.pos
  unfold Product.push
  dsimp only
  nlinarith

theorem one_lt_recip (hξ : ξ ≠ ⌊ξ⌋) : 1 < 1 / (ξ - ⌊ξ⌋) := by
  have hlo : 0 < ξ - ⌊ξ⌋ := sub_pos.mpr (lt_of_le_of_ne (Int.floor_le ξ) (Ne.symm hξ))
  have hhi := Int.lt_floor_add_one ξ
  rw [lt_div_iff₀ hlo]
  linarith

/-- The terms go on. -/
theorem next (hvalue : m.m00 * ξ + m.m01 = x * (m.m10 * ξ + m.m11))
    (hdet : m.det = 1 ∨ m.det = -1) (hpos : 1 ≤ (m.push ⌊ξ⌋).m10) (hnonneg : 0 ≤ m.m10)
    (hξ : ξ ≠ ⌊ξ⌋) : Quotient (m.push ⌊ξ⌋) x (1 / (ξ - ⌊ξ⌋)) where
  value := push_value hvalue hξ
  det := by
    rw [Product.det_push]
    rcases hdet with hdet | hdet
    · exact .inr (congrArg _ hdet)
    · exact .inl (congrArg _ hdet)
  one_lt := one_lt_recip hξ
  pos := hpos
  nonneg := hnonneg

/-- Any fraction below the next one is a combination of the last two, and its error is at least the
error of the last one. -/
theorem best (h : Quotient m x ξ) {a b : ℤ} (hb : 0 < b) (hlt : b < (m.push ⌊ξ⌋).m10) :
    |m.m10 * x - m.m00| ≤ |b * x - a| := by
  obtain ⟨p₁, hp₁⟩ : ∃ p₁, p₁ = (m.push ⌊ξ⌋).m00 := ⟨_, rfl⟩
  obtain ⟨q₁, hq₁⟩ : ∃ q₁, q₁ = (m.push ⌊ξ⌋).m10 := ⟨_, rfl⟩
  obtain ⟨ε, hε⟩ : ∃ ε, ε = m.det := ⟨_, rfl⟩
  have hsq : ε * ε = 1 := by
    rcases h.det with hdet | hdet
    · rw [hε, hdet]
      rfl
    · rw [hε, hdet]
      rfl
  have hdet : m.m00 * q₁ - p₁ * m.m10 = ε := by
    rw [hp₁, hq₁, hε]
    unfold Product.push Product.det
    ring
  -- the coefficients
  obtain ⟨u, hu⟩ : ∃ u, u = ε * (a * q₁ - b * p₁) := ⟨_, rfl⟩
  obtain ⟨v, hv⟩ : ∃ v, v = ε * (b * m.m00 - a * m.m10) := ⟨_, rfl⟩
  have hbq : u * m.m10 + v * q₁ = b := by
    rw [hu, hv]
    linear_combination ε * b * hdet + b * hsq
  have haq : u * m.m00 + v * p₁ = a := by
    rw [hu, hv]
    linear_combination ε * a * hdet + a * hsq
  have hnext : (q₁ : K) * x - p₁ = -(ξ - ⌊ξ⌋) * (m.m10 * x - m.m00) := by
    rw [hp₁, hq₁]
    exact h.error_push _
  have herror : b * x - a = (u - v * (ξ - ⌊ξ⌋)) * (m.m10 * x - m.m00) := by
    have hbq' : (u : K) * m.m10 + v * q₁ = b := by exact_mod_cast hbq
    have haq' : (u : K) * m.m00 + v * p₁ = a := by exact_mod_cast haq
    rw [← hbq', ← haq']
    linear_combination (v : K) * hnext
  rw [← hq₁] at hlt
  have hpos := h.pos
  have hfrac : 0 ≤ ξ - ⌊ξ⌋ := sub_nonneg.mpr (Int.floor_le ξ)
  have hone : 1 ≤ |(u : K) - v * (ξ - ⌊ξ⌋)| := by
    rcases lt_trichotomy v 0 with hv0 | hv0 | hv0
    · have hu1 : 1 ≤ u := by
        by_contra hnot
        nlinarith
      have hu1' : (1 : K) ≤ u := by exact_mod_cast hu1
      have hv0' : (v : K) ≤ 0 := by exact_mod_cast hv0.le
      refine le_trans ?_ (le_abs_self _)
      nlinarith
    · have hu1 : 1 ≤ u := by
        by_contra hnot
        nlinarith
      have hu1' : (1 : K) ≤ u := by exact_mod_cast hu1
      refine le_trans ?_ (le_abs_self _)
      rw [hv0]
      simpa using hu1'
    · have hu1 : u ≤ -1 := by
        by_contra hnot
        nlinarith
      have hu1' : (u : K) ≤ -1 := by exact_mod_cast hu1
      have hv0' : (0 : K) ≤ v := by exact_mod_cast hv0.le
      refine le_trans ?_ (neg_le_abs _)
      nlinarith
  rw [herror, abs_mul]
  exact le_mul_of_one_le_left (abs_nonneg _) hone

end Quotient

end Lua2SC.Continued

import Lua2SC.Lib.Continued
import Mathlib.Algebra.Order.Floor.Semiring
import Mathlib.Data.Rat.Floor

/-!
# `torational.lua`: rational approximation

`torational(x, maxden)` goes through the terms of the continued fraction of `x` until the next
denominator would be greater than `maxden`. Numbers are those of an ordered field here, without
rounding.

It ends for every `x`, and what it returns is a reduced fraction, the best one: among the
denominators up to `maxden` (and below the number that the code takes for a failure of the
representation) none has a smaller `|b x - a|` (`torational_best`).
-/

namespace Lua2SC.Num.ToRational

open Lua2SC.Continued

variable {K : Type} [Field K] [LinearOrder K] [FloorRing K]

/-! ## The program -/

/-- The loop, `none` where the fuel runs out. -/
def torationalFrom (maxden : K) : ℕ → Product → K → Option Product
  | 0, _, _ => none
  | fuel + 1, m, x =>
    let ai := ⌊x⌋
    if ((m.m10 * ai + m.m11 : ℤ) : K) ≤ maxden then
      let m := m.push ai
      -- division by zero
      if x = ai then some m
      else
        let x := 1 / (x - ai)
        -- representation failure
        if 0x7FFFFFFF < x then some m else torationalFrom maxden fuel m x
    else some m

/-- `torational`: the numerator, the denominator and the error. -/
def torational (fuel : ℕ) (x maxden : K) : Option (ℤ × ℤ × K) :=
  (torationalFrom maxden fuel .one x).map fun m => (m.m00, m.m10, x - m.m00 / m.m10)

/-- More fuel changes nothing. -/
theorem torationalFrom_mono {maxden : K} {m' : Product} : ∀ {n n' : ℕ} {m : Product} {x : K},
    n ≤ n' → torationalFrom maxden n m x = some m' → torationalFrom maxden n' m x = some m'
  | 0, _, _, _, _, h => by cases h
  | n + 1, 0, _, _, hle, _ => absurd hle (Nat.not_succ_le_zero n)
  | n + 1, n' + 1, m, x, hle, h => by
    unfold torationalFrom at h ⊢
    dsimp only at h ⊢
    split at h
    next hden =>
      rw [if_pos hden]
      split at h
      next hexact => rwa [if_pos hexact]
      next hne =>
        rw [if_neg hne]
        split at h
        next hfail => rwa [if_pos hfail]
        next hgoes =>
          rw [if_neg hgoes]
          exact torationalFrom_mono (Nat.le_of_succ_le_succ hle) h
    next hden => rwa [if_neg hden]

/-! ## What it returns -/

/-- A best fraction. -/
structure Best (x maxden : K) (p q : ℤ) : Prop where
  pos : 0 < q
  le : (q : K) ≤ maxden
  reduced : IsCoprime p q
  best : ∀ a b : ℤ, 0 < b → (b : K) ≤ maxden → b < 0x7FFFFFFF → |q * x - p| ≤ |b * x - a|

variable [IsStrictOrderedRing K] {x ξ maxden : K} {m : Product}

/-- The denominators so far. -/
structure Within (m : Product) (maxden : K) : Prop where
  m10 : (m.m10 : K) ≤ maxden
  m11 : (m.m11 : K) ≤ maxden

/-- The next denominator is too great. -/
theorem best_of_next (h : Quotient m x ξ) (hwithin : Within m maxden)
    (hnext : maxden < (m.push ⌊ξ⌋).m10) : Best x maxden m.m00 m.m10 where
  pos := h.pos
  le := hwithin.m10
  reduced := Product.isCoprime h.det
  best a b hb hle _ := h.best hb (by exact_mod_cast hle.trans_lt hnext)

omit [FloorRing K] in
theorem best_of_exact (hpos : 0 < m.m10) (hle : (m.m10 : K) ≤ maxden)
    (hdet : m.det = 1 ∨ m.det = -1) (hexact : m.m10 * x = m.m00) :
    Best x maxden m.m00 m.m10 where
  pos := hpos
  le := hle
  reduced := Product.isCoprime hdet
  best a b _ _ _ := by
    rw [hexact, sub_self, abs_zero]
    exact abs_nonneg _

/-- The next denominator is too great for the representation. -/
theorem best_of_failure (h : Quotient m x ξ) (hwithin : Within m maxden)
    (hfail : 0x7FFFFFFF < ξ) : Best x maxden m.m00 m.m10 where
  pos := h.pos
  le := hwithin.m10
  reduced := Product.isCoprime h.det
  best a b hb _ hlt := by
    refine h.best hb (lt_of_lt_of_le hlt ?_)
    have hfloor : (0x7FFFFFFF : ℤ) ≤ ⌊ξ⌋ := by
      rw [Int.le_floor]
      exact_mod_cast hfail.le
    have hpos := h.pos
    have hnonneg := h.nonneg
    unfold Product.push
    dsimp only
    nlinarith

/-- A turn of the loop, from a product whose next denominator is positive. -/
theorem torationalFrom_turn {fuel : ℕ}
    (hvalue : m.m00 * ξ + m.m01 = x * (m.m10 * ξ + m.m11)) (hdet : m.det = 1 ∨ m.det = -1)
    (hpos : 1 ≤ (m.push ⌊ξ⌋).m10) (hnonneg : 0 ≤ m.m10) (hle : (m.m10 : K) ≤ maxden)
    (hnext : ((m.push ⌊ξ⌋).m10 : K) ≤ maxden)
    (hrest : ∀ m' ξ', Quotient m' x ξ' → Within m' maxden →
      m'.m10 = (m.push ⌊ξ⌋).m10 → m'.m11 = m.m10 →
      ∃ m'', torationalFrom maxden fuel m' ξ' = some m'' ∧ Best x maxden m''.m00 m''.m10) :
    ∃ m'', torationalFrom maxden (fuel + 1) m ξ = some m'' ∧ Best x maxden m''.m00 m''.m10 := by
  have hwithin : Within (m.push ⌊ξ⌋) maxden := ⟨hnext, hle⟩
  have hnext' : ((m.m10 * ⌊ξ⌋ + m.m11 : ℤ) : K) ≤ maxden := hnext
  unfold torationalFrom
  dsimp only
  rw [if_pos hnext']
  split
  next hexact =>
    have hdet' : (m.push ⌊ξ⌋).det = 1 ∨ (m.push ⌊ξ⌋).det = -1 := by
      rw [Product.det_push]
      omega
    refine ⟨_, rfl, best_of_exact hpos hnext hdet' ?_⟩
    unfold Product.push
    push_cast
    linear_combination -hvalue - (m.m10 * x - m.m00) * hexact
  next hne =>
    have hquotient := Quotient.next hvalue hdet hpos hnonneg hne
    split
    next hfail => exact ⟨_, rfl, best_of_failure hquotient hwithin hfail⟩
    next hgoes => exact hrest _ _ hquotient hwithin rfl rfl

theorem torationalFrom_best : ∀ {fuel : ℕ} {m : Product} {ξ : K}, Quotient m x ξ →
    Within m maxden → 2 * ⌊maxden⌋ + 1 ≤ m.m10 + m.m11 + fuel →
    ∃ m', torationalFrom maxden fuel m ξ = some m' ∧ Best x maxden m'.m00 m'.m10 := by
  intro fuel
  induction fuel with
  | zero =>
    intro m ξ _ hwithin hfuel
    have h10 := Int.le_floor.mpr hwithin.m10
    have h11 := Int.le_floor.mpr hwithin.m11
    omega
  | succ fuel ih =>
    intro m ξ hquotient hwithin hfuel
    have hpush := hquotient.push_pos
    have hpos := hquotient.pos
    have hnonneg := hquotient.nonneg
    by_cases hnext : ((m.push ⌊ξ⌋).m10 : K) ≤ maxden
    · refine torationalFrom_turn hquotient.value hquotient.det (by omega) (by omega)
        hwithin.m10 hnext fun m' ξ' hquotient' hwithin' h10 h11 => ?_
      exact ih hquotient' hwithin' (by omega)
    · refine ⟨m, ?_, best_of_next hquotient hwithin (not_le.mp hnext)⟩
      unfold torationalFrom
      exact if_neg hnext

/-- `torational` ends, with a reduced fraction whose denominator is within bounds, and none within
bounds is better. -/
theorem torational_best (x maxden : K) (h : 1 ≤ maxden) : ∃ p q : ℤ, Best x maxden p q ∧
    ∀ fuel : ℕ, 2 * ⌊maxden⌋ + 1 ≤ fuel → torational fuel x maxden = some (p, q, x - p / q) := by
  have hrun : ∀ fuel : ℕ, 2 * ⌊maxden⌋ + 1 ≤ fuel →
      ∃ m, torationalFrom maxden fuel .one x = some m ∧ Best x maxden m.m00 m.m10 := by
    intro fuel hfuel
    have hfloor : 1 ≤ ⌊maxden⌋ := Int.le_floor.mpr (by exact_mod_cast h)
    obtain ⟨fuel, rfl⟩ : ∃ n, fuel = n + 1 := ⟨fuel - 1, by omega⟩
    have hfirst : (Product.one.push ⌊x⌋).m10 = 1 := by
      unfold Product.push Product.one
      ring
    refine torationalFrom_turn ?_ (.inl rfl) hfirst.ge le_rfl ?_ ?_ fun m' ξ' hq hw h10 h11 => ?_
    · unfold Product.one
      push_cast
      ring
    · exact le_trans (by exact_mod_cast zero_le_one) h
    · rw [hfirst]
      exact_mod_cast h
    · refine torationalFrom_best hq hw ?_
      rw [h10, h11, hfirst]
      show 2 * ⌊maxden⌋ + 1 ≤ 1 + 0 + (fuel : ℤ)
      push_cast at hfuel
      omega
  have hfloor : 1 ≤ ⌊maxden⌋ := Int.le_floor.mpr (by exact_mod_cast h)
  obtain ⟨m, hm, hbest⟩ := hrun (2 * ⌊maxden⌋ + 1).toNat (Int.self_le_toNat _)
  refine ⟨m.m00, m.m10, hbest, fun fuel hfuel => ?_⟩
  unfold torational
  rw [torationalFrom_mono (by omega) hm]
  rfl

/-- Twelve fifths. -/
theorem torational_best_fifths : ∃ p q : ℤ, Best (531441 / 4096 : ℚ) 1000 p q ∧
    ∀ fuel : ℕ, 2 * ⌊(1000 : ℚ)⌋ + 1 ≤ fuel →
      torational fuel (531441 / 4096 : ℚ) 1000 = some (p, q, (531441 / 4096 : ℚ) - p / q) :=
  torational_best (531441 / 4096 : ℚ) 1000 (by norm_num)

end Lua2SC.Num.ToRational

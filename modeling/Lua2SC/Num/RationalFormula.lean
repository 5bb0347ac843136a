import Lua2SC.Num.RationalPoly
import Mathlib.FieldTheory.RatFunc.AsPolynomial

/-!
# `polynomial.lua`: formulas of quotients

A script writes formulas with the operators of quotients, `Simplify`, `Normalize` and `derive`. A
formula means a rational function. Where no divisor is zero, powers are positive and `MCD` drops
nothing, every operator gives a quotient, of this function, and calling the quotient gives the
function's value (`compute_meaning`).

Powers have to be positive, since the loop of `__pow` starts at 2 with the base itself: `a^0` and
`a^-1` are `a`.
-/

namespace Lua2SC.Num

open Polynomial

variable {K : Type} [Field K] [LinearOrder K]

/-! ## Formulas -/

/-- What a script writes. -/
inductive Formula (K : Type) [Field K] where
  | quotient (a : RatPoly K)
  | add (a b : Formula K)
  | sub (a b : Formula K)
  | mul (a b : Formula K)
  | div (a b : Formula K)
  | unm (a : Formula K)
  | pow (a : Formula K) (n : ℤ)
  | Normalize (a : Formula K)
  | Simplify (a : Formula K) (tol : K)
  | derive (a : Formula K)

namespace Formula

/-- What the operators compute. -/
def compute : Formula K → Option (RatPoly K)
  | quotient a => some a
  | add a b => do (← a.compute).add (← b.compute)
  | sub a b => do (← a.compute).sub (← b.compute)
  | mul a b => return (← a.compute).mul (← b.compute)
  | div a b => return (← a.compute).div (← b.compute)
  | unm a => return (← a.compute).unm
  | pow a n => return (← a.compute).pow n
  | Normalize a => return (← a.compute).Normalize
  | Simplify a tol => do (← a.compute).Simplify tol
  | derive a => do (← a.compute).derive

/-- The rational function. -/
noncomputable def meaning : Formula K → RatFunc K
  | quotient a => a.value
  | add a b => a.meaning + b.meaning
  | sub a b => a.meaning - b.meaning
  | mul a b => a.meaning * b.meaning
  | div a b => a.meaning / b.meaning
  | unm a => -a.meaning
  | pow a n => a.meaning ^ n
  | Normalize a => a.meaning
  | Simplify a _ => a.meaning
  | derive a => RatPoly.derivativeOf a.meaning

/-- No divisor is zero, powers are positive, and nothing is dropped. -/
def Defined : Formula K → Prop
  | quotient a => a.Num.Proper ∧ a.Den.toPoly ≠ 0
  | add a b => a.Defined ∧ b.Defined ∧
    ∀ A ∈ a.compute, ∀ B ∈ b.compute, Poly.ExactMCD defaultTol A.Den B.Den
  | sub a b => a.Defined ∧ b.Defined ∧
    ∀ A ∈ a.compute, ∀ B ∈ b.compute, Poly.ExactMCD defaultTol A.Den B.unm.Den
  | mul a b => a.Defined ∧ b.Defined
  | div a b => a.Defined ∧ b.Defined ∧ b.meaning ≠ 0
  | unm a => a.Defined
  | pow a n => a.Defined ∧ 1 ≤ n
  | Normalize a => a.Defined
  | Simplify a tol => a.Defined ∧ ∀ A ∈ a.compute, Poly.ExactMCD tol A.Num A.Den
  | derive a => a.Defined ∧
    ∀ A ∈ a.compute, Poly.ExactMCD defaultTol A.quotientRule.Num A.quotientRule.Den

end Formula

/-! ## What the operators keep -/

namespace Poly

theorem proper_mul (A B : Poly K) : (A.mul B).Proper := by
  unfold mul
  apply List.foldlRecOn (motive := Proper)
  · exact fun _ => rfl
  · intro res hres i _
    apply List.foldlRecOn (motive := Proper)
    · exact hres
    · exact fun res hres j _ => proper_newindex hres _ _

theorem proper_cancelDown (B : Poly K) (n : ℕ) (d : Division K) (h : d.Q.Proper) :
    (cancelDown B n d).Q.Proper := by
  induction n generalizing d with
  | zero => exact h
  | succ k ih => exact ih _ (proper_newindex h _ _)

theorem proper_div (a b : Poly K) : (a.div b).Q.Proper :=
  proper_cancelDown _ _ _ fun _ => rfl

end Poly

namespace RatPoly

/-- A quotient that the operators take. -/
structure Sane (a : RatPoly K) : Prop where
  num : a.Num.Proper
  den : a.Den.toPoly ≠ 0

variable {a b c : RatPoly K} {tol : K}

theorem Sane.mul (ha : a.Sane) (hb : b.Sane) : (a.mul b).Sane := by
  refine ⟨Poly.proper_mul _ _, ?_⟩
  unfold RatPoly.mul
  rw [Poly.toPoly_mul]
  exact mul_ne_zero ha.den hb.den

theorem Sane.div (ha : a.Sane) (hb : b.value ≠ 0) : (a.div b).Sane := by
  refine ⟨Poly.proper_mul _ _, ?_⟩
  have hnum : b.Num.toPoly ≠ 0 := by
    intro hzero
    apply hb
    unfold value
    rw [hzero, map_zero, zero_div]
  unfold RatPoly.div
  rw [Poly.toPoly_mul]
  exact mul_ne_zero ha.den hnum

theorem Sane.unm (ha : a.Sane) : a.unm.Sane := by
  refine ⟨Poly.proper_mul _ _, ?_⟩
  unfold RatPoly.unm RatPoly.mul
  rw [Poly.toPoly_mul, toPoly_one, one_mul]
  exact ha.den

theorem Sane.pow (ha : a.Sane) (n : ℤ) : (a.pow n).Sane := by
  unfold RatPoly.pow
  apply List.foldlRecOn (motive := Sane)
  · exact ha
  · exact fun res hres _ _ => hres.mul ha

theorem Sane.Normalize (ha : a.Sane) : a.Normalize.Sane :=
  ⟨Poly.proper_assign _ _, (value_Normalize ha.den).2.ne_zero⟩

theorem Sane.add (ha : a.Sane) (hb : b.Sane) (hexact : Poly.ExactMCD defaultTol a.Den b.Den) :
    ∃ c, a.add b = some c ∧ c.Sane ∧ c.value = a.value + b.value := by
  obtain ⟨c, hc, hsum⟩ := value_add ha.den hb.den
  obtain ⟨hvalue, hdvd⟩ := hsum hexact
  refine ⟨c, hc, ⟨?_, ?_⟩, hvalue⟩
  · unfold RatPoly.add at hc
    obtain ⟨m, -, hm⟩ := Option.bind_eq_some_iff.mp hc
    obtain rfl := Option.some.inj hm
    exact Poly.proper_assign _ _
  · -- it divides the product of the denominators
    intro hzero
    have hprod := (hdvd (a.Den.toPoly * b.Den.toPoly)).mpr ⟨dvd_mul_right _ _, dvd_mul_left _ _⟩
    rw [hzero, zero_dvd_iff] at hprod
    exact mul_ne_zero ha.den hb.den hprod

theorem Sane.Simplify (ha : a.Sane) (hexact : Poly.ExactMCD tol a.Num a.Den) :
    ∃ c, a.Simplify tol = some c ∧ c.Sane ∧ c.value = a.value := by
  obtain ⟨c, hc, hkept⟩ := Simplify_proper tol ha.num ha.den
  obtain ⟨hden, hvalue⟩ := hkept hexact
  refine ⟨c, hc, ⟨?_, hden⟩, hvalue⟩
  unfold RatPoly.Simplify at hc
  obtain ⟨mcd, -, hmcd⟩ := Option.bind_eq_some_iff.mp hc
  obtain rfl := Option.some.inj hmcd
  exact Poly.proper_div _ _

theorem Sane.derive (ha : a.Sane)
    (hexact : Poly.ExactMCD defaultTol a.quotientRule.Num a.quotientRule.Den) :
    ∃ c, a.derive = some c ∧ c.Sane ∧ c.value = derivativeOf a.value := by
  have hrule : a.quotientRule.Sane := by
    refine ⟨Poly.proper_assign _ _, ?_⟩
    unfold quotientRule
    rw [Poly.toPoly_mul]
    exact mul_ne_zero ha.den ha.den
  obtain ⟨c, hc, hsane, -⟩ := hrule.Simplify hexact
  obtain ⟨c', hc', hvalue⟩ := derive_value ha.den
  obtain rfl : c = c' := Option.some.inj (hc.symm.trans hc')
  exact ⟨c, hc, hsane, hvalue hexact⟩

/-- A call gives the value of the function, except where the denominator is zero. -/
theorem call_value {x : K} (hx : a.Den.call x ≠ 0) :
    a.call x = a.value.eval (RingHom.id K) x := by
  unfold call
  rw [Poly.call_eq] at hx ⊢
  rw [Poly.call_eq]
  have hden : a.Den.toPoly ≠ 0 := by
    intro hzero
    rw [hzero, eval_zero] at hx
    exact hx rfl
  have hdvd : a.value.denom ∣ a.Den.toPoly := (RatFunc.denom_dvd hden).mpr ⟨_, rfl⟩
  have hdenom : a.value.denom.eval x ≠ 0 := fun hzero =>
    hx (eval_eq_zero_of_dvd_of_eval_eq_zero hdvd hzero)
  have hcross : a.value.num * a.Den.toPoly = a.Num.toPoly * a.value.denom :=
    (RatFunc.num_mul_eq_mul_denom_iff hden).mpr rfl
  have hcross' := congrArg (Polynomial.eval x) hcross
  rw [eval_mul, eval_mul] at hcross'
  unfold RatFunc.eval
  rw [eval₂_id, eval₂_id, div_eq_div_iff hx hdenom, hcross']

end RatPoly

/-! ## Formulas are computed -/

namespace Formula

/-- One operator after the other. -/
theorem compute_sane (e : Formula K) (h : e.Defined) :
    ∃ c, e.compute = some c ∧ c.Sane ∧ c.value = e.meaning := by
  induction e with
  | quotient a => exact ⟨a, rfl, ⟨h.1, h.2⟩, rfl⟩
  | add a b iha ihb =>
    obtain ⟨ha, hb, hexact⟩ := h
    obtain ⟨A, hA, hsaneA, hvalueA⟩ := iha ha
    obtain ⟨B, hB, hsaneB, hvalueB⟩ := ihb hb
    obtain ⟨c, hc, hsane, hvalue⟩ := hsaneA.add hsaneB (hexact A hA B hB)
    refine ⟨c, ?_, hsane, ?_⟩
    · rw [compute, hA, hB]
      exact hc
    · rw [hvalue, hvalueA, hvalueB]
      rfl
  | sub a b iha ihb =>
    obtain ⟨ha, hb, hexact⟩ := h
    obtain ⟨A, hA, hsaneA, hvalueA⟩ := iha ha
    obtain ⟨B, hB, hsaneB, hvalueB⟩ := ihb hb
    obtain ⟨c, hc, hsane, hvalue⟩ := hsaneA.add hsaneB.unm (hexact A hA B hB)
    refine ⟨c, ?_, hsane, ?_⟩
    · rw [compute, hA, hB]
      exact hc
    · rw [hvalue, RatPoly.value_unm, hvalueA, hvalueB, ← sub_eq_add_neg]
      rfl
  | mul a b iha ihb =>
    obtain ⟨A, hA, hsaneA, hvalueA⟩ := iha h.1
    obtain ⟨B, hB, hsaneB, hvalueB⟩ := ihb h.2
    refine ⟨A.mul B, ?_, hsaneA.mul hsaneB, ?_⟩
    · rw [compute, hA, hB]
      rfl
    · rw [RatPoly.value_mul, hvalueA, hvalueB]
      rfl
  | div a b iha ihb =>
    obtain ⟨ha, hb, hne⟩ := h
    obtain ⟨A, hA, hsaneA, hvalueA⟩ := iha ha
    obtain ⟨B, hB, -, hvalueB⟩ := ihb hb
    refine ⟨A.div B, ?_, hsaneA.div (hvalueB ▸ hne), ?_⟩
    · rw [compute, hA, hB]
      rfl
    · rw [RatPoly.value_div, hvalueA, hvalueB]
      rfl
  | unm a ih =>
    obtain ⟨A, hA, hsane, hvalue⟩ := ih h
    refine ⟨A.unm, ?_, hsane.unm, ?_⟩
    · rw [compute, hA]
      rfl
    · rw [RatPoly.value_unm, hvalue]
      rfl
  | pow a n ih =>
    obtain ⟨A, hA, hsane, hvalue⟩ := ih h.1
    refine ⟨A.pow n, ?_, hsane.pow n, ?_⟩
    · rw [compute, hA]
      rfl
    · obtain ⟨k, rfl⟩ : ∃ k : ℕ, n = k := ⟨n.toNat, by have := h.2; omega⟩
      rw [RatPoly.value_pow A (by have := h.2; omega), hvalue]
      exact (zpow_natCast _ k).symm
  | Normalize a ih =>
    obtain ⟨A, hA, hsane, hvalue⟩ := ih h
    refine ⟨A.Normalize, ?_, hsane.Normalize, ?_⟩
    · rw [compute, hA]
      rfl
    · rw [(RatPoly.value_Normalize hsane.den).1, hvalue]
      rfl
  | Simplify a tol ih =>
    obtain ⟨ha, hexact⟩ := h
    obtain ⟨A, hA, hsaneA, hvalueA⟩ := ih ha
    obtain ⟨c, hc, hsane, hvalue⟩ := hsaneA.Simplify (hexact A hA)
    refine ⟨c, ?_, hsane, hvalue.trans hvalueA⟩
    rw [compute, hA]
    exact hc
  | derive a ih =>
    obtain ⟨ha, hexact⟩ := h
    obtain ⟨A, hA, hsaneA, hvalueA⟩ := ih ha
    obtain ⟨c, hc, hsane, hvalue⟩ := hsaneA.derive (hexact A hA)
    refine ⟨c, ?_, hsane, ?_⟩
    · rw [compute, hA]
      exact hc
    · rw [hvalue, hvalueA]
      rfl

/-- A formula is computed, to a quotient that is worth what the formula means, everywhere but at the
zeros of its denominator. -/
theorem compute_meaning (e : Formula K) (h : e.Defined) :
    ∃ c, e.compute = some c ∧ c.Den.toPoly ≠ 0 ∧ c.value = e.meaning ∧
      ∀ x, c.Den.call x ≠ 0 → c.call x = e.meaning.eval (RingHom.id K) x := by
  obtain ⟨c, hc, hsane, hvalue⟩ := compute_sane e h
  refine ⟨c, hc, hsane.den, hvalue, fun x hx => ?_⟩
  rw [← hvalue]
  exact RatPoly.call_value hx

/-- The derivative of `(x^2+5x+6)/(x^2+7x+10)`, simplified, plus the square of `1/(x-4)`. -/
def resonance : Formula ℚ :=
  .derive (.add
    (.Simplify (.quotient ⟨.ofCoefs [6, 5, 1] (by decide +kernel),
      .ofCoefs [10, 7, 1] (by decide +kernel)⟩) defaultTol)
    (.pow (.quotient ⟨.one, .ofCoefs [-4, 1] (by decide +kernel)⟩) 2))

theorem compute_meaning_resonance : ∃ c, resonance.compute = some c ∧ c.Den.toPoly ≠ 0 ∧
    c.value = resonance.meaning ∧
      ∀ x, c.Den.call x ≠ 0 → c.call x = resonance.meaning.eval (RingHom.id ℚ) x := by
  have hne : ∀ t : Poly ℚ, ¬ t.IsZero → t.toPoly ≠ 0 := fun t h h0 =>
    h ((Poly.isZero_iff t).mpr h0)
  have hproper : ∀ t : Poly ℚ, ¬ t.IsZero → t.Proper := fun t h h0 => absurd h0 (hne t h)
  apply compute_meaning
  -- `x+2` goes in the first, the denominators that are left have no common factor, and the
  -- derivative loses one `x-4`
  refine ⟨⟨⟨⟨hproper _ (by decide +kernel), hne _ (by decide +kernel)⟩, ?_⟩,
    ⟨⟨hproper _ (by decide +kernel), hne _ (by decide +kernel)⟩, by decide⟩, ?_⟩, ?_⟩
  · decide +kernel
  · decide +kernel
  · decide +kernel

end Formula

end Lua2SC.Num

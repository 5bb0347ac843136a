import Lua2SC.Num.Gcd
import Mathlib.FieldTheory.RatFunc.Basic
import Mathlib.Algebra.Polynomial.Derivative

/-!
# `polynomial.lua`: quotients of polynomials

A quotient is a numerator and a denominator. Products and quotients of quotients are not reduced; a
sum has the least common multiple of the denominators that `MCM` finds; `Simplify` divides by what
`MCD` finds.

Their meaning is the rational function (`value`), and what the operators compute is what they say,
as long as `MCD` drops nothing where it is asked (`value_add`, `Simplify_value`, `derive_value`).
-/

namespace Lua2SC.Num

open Polynomial

variable {K : Type} [Field K] [LinearOrder K]

/-! ## The program -/

/-- Without a tolerance. -/
def defaultTol : K := 1 / 10 ^ 12

namespace Poly

/-- `Polynomial_mt.__call`. -/
def call (t : Poly K) (val : K) : K :=
  (List.range t.deg.toNat).foldr (fun (i : ℕ) res => val * res + t.index i) (t.index t.deg)

/-- `Polynomial_mt.__unm`. -/
def unm (A : Poly K) : Poly K := empty.assign A.pol.keys fun i => -A.index i

/-- `Polynomial_mt.derive`. -/
def derive (t : Poly K) : Poly K :=
  empty.assign (List.range t.deg.toNat) fun i => (i + 1 : ℕ) * t.index (i + 1 : ℕ)

end Poly

namespace RatPoly

/-- `RationalPoly_mt.__div`. -/
def div (a b : RatPoly K) : RatPoly K where
  Num := a.Num.mul b.Den
  Den := a.Den.mul b.Num

/-- `RationalPoly_mt.__add`. -/
def add (a b : RatPoly K) : Option (RatPoly K) := do
  let m ← Poly.MCM a.Den b.Den defaultTol
  return ⟨(a.Num.mul m.Bf).add (b.Num.mul m.Af), m.mcm⟩

/-- `RationalPoly_mt.__unm`, `-1 * a`. -/
def unm (a : RatPoly K) : RatPoly K :=
  mul ⟨Poly.ofCoefs [-1] fun h => absurd h (Nat.lt_irrefl 1), Poly.one⟩ a

/-- `RationalPoly_mt.__sub`. -/
def sub (a b : RatPoly K) : Option (RatPoly K) := a.add b.unm

/-- `RationalPoly_mt.__pow`: `for i=2,b`. -/
def pow (a : RatPoly K) (b : ℤ) : RatPoly K :=
  (List.range (b - 1).toNat).foldl (fun res _ => res.mul a) a

/-- `RationalPoly_mt.__call`. -/
def call (t : RatPoly K) (val : K) : K := t.Num.call val / t.Den.call val

/-- `RationalPoly_mt.Normalize`. -/
def Normalize (a : RatPoly K) : RatPoly K :=
  let fac := 1 / a.Den.index a.Den.deg
  ⟨a.Num.scale fac, a.Den.scale fac⟩

/-- `RationalPoly_mt.Simplify`. -/
def Simplify (a : RatPoly K) (tol : K) : Option (RatPoly K) := do
  let mcd ← Poly.MCD a.Num a.Den tol
  return ⟨(a.Num.div mcd).Q, (a.Den.div mcd).Q⟩

/-- `derB*A-derA*B` and `A*A`. -/
def quotientRule (a : RatPoly K) : RatPoly K :=
  let B := a.Num
  let A := a.Den
  ⟨(B.derive.mul A).add (A.derive.mul B).unm, A.mul A⟩

/-- `RationalPoly_mt.derive`. -/
def derive (a : RatPoly K) : Option (RatPoly K) := a.quotientRule.Simplify defaultTol

end RatPoly

/-! ## Polynomials -/

namespace Poly

theorem toPoly_unm (A : Poly K) : A.unm.toPoly = -A.toPoly := by
  ext i
  rw [coeff_toPoly, coeff_neg, coeff_toPoly, unm, index_assign]
  split
  next => rfl
  next hkey =>
    have hnone : A.pol.lookup i = none := AList.lookup_eq_none.mpr hkey
    rw [index_natCast A, Lua2SC.Num.coef, hnone]
    exact neg_zero.symm

theorem toPoly_derive (t : Poly K) : t.derive.toPoly = derivative t.toPoly := by
  ext i
  rw [coeff_toPoly, coeff_derivative, coeff_toPoly, derive, index_assign]
  split
  next =>
    rw [mul_comm]
    push_cast
    rfl
  next hi =>
    rw [List.mem_range] at hi
    rw [t.index_eq_zero (by omega), zero_mul]
    rfl

/-- Without coefficients the degree is -1. -/
def Proper (t : Poly K) : Prop := t.toPoly = 0 → t.deg = -1

theorem proper_newindex {t : Poly K} (h : t.Proper) (key : ℕ) (val : K) :
    (t.newindex key val).Proper := by
  intro hzero
  have hall : ∀ i : ℕ, (t.newindex key val).index i = 0 := fun i => by
    rw [← coeff_toPoly, hzero, coeff_zero]
  by_cases hval : val ≠ 0
  · have hkey := hall key
    rw [index_newindex, if_pos rfl] at hkey
    exact absurd hkey hval
  · have hother : ∀ i : ℕ, i ≠ key → t.index i = 0 := fun i hi => by
      have hi' := hall i
      rwa [index_newindex, if_neg hi] at hi'
    unfold newindex
    rw [dif_neg hval]
    show (if t.deg = key then degBelow t.pol key else t.deg) = -1
    split
    next hdeg =>
      have hge := degBelow_ge t.pol key
      by_contra hne
      have hpos : 0 ≤ degBelow t.pol key := by omega
      have hlt := degBelow_lt t.pol key
      have hcoef := coef_degBelow hpos
      rw [← index_natCast] at hcoef
      exact hcoef (hother _ (by omega))
    next hdeg =>
      -- the coefficient at the degree is not the one that goes
      have hge := t.isDeg.ge
      by_contra hne
      have hzero' : t.toPoly ≠ 0 := fun h0 => hne (h h0)
      have hlead := index_deg hzero'
      obtain ⟨n, hn⟩ : ∃ n : ℕ, t.deg = n := ⟨t.deg.toNat, by omega⟩
      rw [hn, hother n (by omega)] at hlead
      exact leadingCoeff_ne_zero.mpr hzero' hlead.symm

theorem proper_assign (keys : List ℕ) (f : ℕ → K) : ((empty : Poly K).assign keys f).Proper := by
  induction keys using List.reverseRecOn with
  | nil => exact fun _ => rfl
  | append_singleton keys key ih =>
    unfold assign
    rw [List.foldl_concat]
    exact proper_newindex ih key (f key)

omit [LinearOrder K] in
/-- Horner's rule, from a given value. -/
theorem horner_eq (t : Poly K) (val q : K) (n : ℕ) :
    (List.range n).foldr (fun (i : ℕ) res => val * res + t.index i) q =
      (∑ i ∈ Finset.range n, t.index i * val ^ i) + q * val ^ n := by
  induction n generalizing q with
  | zero => simp
  | succ n ih =>
    rw [List.range_succ, List.foldr_append, List.foldr_cons, List.foldr_nil, ih,
      Finset.sum_range_succ]
    ring

theorem call_eq (t : Poly K) (val : K) : t.call val = t.toPoly.eval val := by
  unfold call
  rw [horner_eq]
  by_cases hdeg : t.deg = -1
  · have hzero : t.toPoly = 0 := (isZero_iff t).mp (.inl hdeg)
    rw [hzero, hdeg]
    simp [index]
  · have hge := t.isDeg.ge
    obtain ⟨n, hn⟩ : ∃ n : ℕ, t.deg = n := ⟨t.deg.toNat, by omega⟩
    have hlt : t.toPoly.natDegree < n + 1 := by
      refine Nat.lt_succ_of_le (natDegree_le_iff_coeff_eq_zero.mpr fun i hi => ?_)
      rw [coeff_toPoly]
      exact t.index_eq_zero (by omega)
    rw [eval_eq_sum_range' hlt, Finset.sum_range_succ, hn, Int.toNat_natCast]
    simp only [coeff_toPoly]

end Poly

namespace RatPoly

/-! ## Values -/

/-- The rational function. -/
noncomputable def value (a : RatPoly K) : RatFunc K :=
  algebraMap K[X] (RatFunc K) a.Num.toPoly / algebraMap K[X] (RatFunc K) a.Den.toPoly

omit [LinearOrder K] in
/-- The derivative of a rational function, by its numerator and denominator in lowest terms. -/
noncomputable def derivativeOf (f : RatFunc K) : RatFunc K :=
  algebraMap K[X] (RatFunc K) (derivative f.num * f.denom - f.num * derivative f.denom) /
    algebraMap K[X] (RatFunc K) (f.denom ^ 2)

variable {a b c : RatPoly K} {tol : K}

theorem value_mul (a b : RatPoly K) : (a.mul b).value = a.value * b.value := by
  unfold value mul
  rw [Poly.toPoly_mul, Poly.toPoly_mul, map_mul, map_mul, div_mul_div_comm]

theorem value_div (a b : RatPoly K) : (a.div b).value = a.value / b.value := by
  unfold value div
  rw [Poly.toPoly_mul, Poly.toPoly_mul, map_mul, map_mul, div_div_div_eq]

omit [LinearOrder K] in
theorem toPoly_const (q : K) :
    (Poly.ofCoefs [q] fun h => absurd h (Nat.lt_irrefl 1)).toPoly = C q := by
  ext i
  rw [Poly.coeff_toPoly, Poly.index_natCast, coeff_C]
  show Lua2SC.Num.coef (Lua.ofPairs (([q] : List K).zipIdx.map Prod.swap)) i = _
  rw [Poly.coef_ofPairs]
  cases i with
  | zero => rfl
  | succ i => rfl

theorem value_unm (a : RatPoly K) : a.unm.value = -a.value := by
  unfold unm
  rw [value_mul]
  unfold value
  rw [toPoly_const, toPoly_one, map_neg, map_one, map_neg, map_one, div_one, neg_one_mul]

theorem value_pow (a : RatPoly K) {n : ℕ} (hn : 1 ≤ n) : (a.pow n).value = a.value ^ n := by
  have hloop : ∀ k : ℕ, ((List.range k).foldl (fun res _ => res.mul a) a).value =
      a.value ^ (k + 1) := by
    intro k
    induction k with
    | zero => exact (pow_one _).symm
    | succ k ih =>
      rw [List.range_succ, List.foldl_append, List.foldl_cons, List.foldl_nil, value_mul, ih,
        pow_succ _ (k + 1)]
  unfold pow
  rw [hloop]
  congr 1
  omega

theorem value_add (ha : a.Den.toPoly ≠ 0) (hb : b.Den.toPoly ≠ 0) : ∃ c, a.add b = some c ∧
    (Poly.ExactMCD defaultTol a.Den b.Den → c.value = a.value + b.value ∧
      ∀ d, c.Den.toPoly ∣ d ↔ a.Den.toPoly ∣ d ∧ b.Den.toPoly ∣ d) := by
  obtain ⟨m, hm, hlcm⟩ := Poly.MCM_lcm defaultTol ha hb
  refine ⟨⟨(a.Num.mul m.Bf).add (b.Num.mul m.Af), m.mcm⟩, ?_, fun hexact => ?_⟩
  · unfold add
    rw [hm]
    rfl
  obtain ⟨hmonic, -, hA, hB, hmcm, hdvd⟩ := hlcm hexact
  refine ⟨?_, hdvd⟩
  unfold value
  dsimp only
  rw [hmcm, Poly.toPoly_add, Poly.toPoly_mul, Poly.toPoly_mul]
  have hBf : m.Bf.toPoly ≠ 0 := fun hzero => hb (by rw [hB, hzero, zero_mul])
  have hcross : b.Den.toPoly * m.Af.toPoly = a.Den.toPoly * m.Bf.toPoly := by
    linear_combination m.Af.toPoly * hB - m.Bf.toPoly * hA
  have hcross' := congrArg (algebraMap K[X] (RatFunc K)) hcross
  rw [map_mul, map_mul] at hcross'
  have ha' := RatFunc.algebraMap_ne_zero ha
  have hb' := RatFunc.algebraMap_ne_zero hb
  have hBf' := RatFunc.algebraMap_ne_zero hBf
  rw [div_add_div _ _ ha' hb', map_mul, map_add, map_mul, map_mul, div_eq_div_iff
    (mul_ne_zero ha' hBf') (mul_ne_zero ha' hb')]
  linear_combination algebraMap K[X] (RatFunc K) a.Den.toPoly *
    algebraMap K[X] (RatFunc K) b.Num.toPoly * hcross'

theorem value_Normalize (hden : a.Den.toPoly ≠ 0) :
    a.Normalize.value = a.value ∧ a.Normalize.Den.toPoly.Monic := by
  refine ⟨?_, Poly.monic_monic hden⟩
  have hlead := Poly.lead_ne_zero hden
  have hC : algebraMap K[X] (RatFunc K) (C (1 / a.Den.index a.Den.deg)) ≠ 0 :=
    RatFunc.algebraMap_ne_zero (C_ne_zero.mpr hlead)
  unfold value Normalize
  dsimp only
  rw [Poly.toPoly_scale, Poly.toPoly_scale, map_mul, map_mul, mul_div_mul_left _ _ hC]

omit [LinearOrder K] in
/-- A common factor cancels. -/
theorem value_factor {c : RatPoly K} {g : K[X]} (hg : g ≠ 0)
    (hnum : a.Num.toPoly = c.Num.toPoly * g) (hden : a.Den.toPoly = c.Den.toPoly * g) :
    c.value = a.value := by
  have hg' : algebraMap K[X] (RatFunc K) g ≠ 0 := RatFunc.algebraMap_ne_zero hg
  unfold value
  rw [hnum, hden, map_mul, map_mul, mul_div_mul_right _ _ hg']

/-- A quotient without numerator is left as it is. -/
theorem Simplify_zero (hnum : a.Num.deg = -1) (hden : a.Den.toPoly ≠ 0) :
    ∃ c, a.Simplify tol = some c ∧ c.Den.toPoly ≠ 0 ∧ c.value = a.value := by
  have hdeg := Poly.deg_eq hden
  have hmcd : Poly.MCD a.Num a.Den tol = some Poly.one := by
    unfold Poly.MCD
    rw [if_pos (by omega)]
    exact if_pos hnum
  have hone : (Poly.one : Poly K).toPoly.Monic := by
    rw [toPoly_one]
    exact monic_one
  have hdvd : ∀ p : K[X], (Poly.one : Poly K).toPoly ∣ p := fun p => by
    rw [toPoly_one]
    exact one_dvd p
  have hN := Poly.div_factor a.Num hone (hdvd _)
  have hD := Poly.div_factor a.Den hone (hdvd _)
  refine ⟨⟨(a.Num.div Poly.one).Q, (a.Den.div Poly.one).Q⟩, ?_, ?_,
    value_factor hone.ne_zero hN hD⟩
  · unfold Simplify
    rw [hmcd]
    rfl
  · rw [hD] at hden
    exact left_ne_zero_of_mul hden

/-- `Simplify` ends; where nothing is dropped it keeps the value, and what is left is reduced. -/
theorem Simplify_value (tol : K) (hnum : a.Num.toPoly ≠ 0) (hden : a.Den.toPoly ≠ 0) :
    ∃ c, a.Simplify tol = some c ∧ (Poly.ExactMCD tol a.Num a.Den →
      c.Den.toPoly ≠ 0 ∧ c.value = a.value ∧ IsCoprime c.Num.toPoly c.Den.toPoly) := by
  obtain ⟨g, hg⟩ := Poly.MCD_total tol hnum hden
  refine ⟨⟨(a.Num.div g).Q, (a.Den.div g).Q⟩, ?_, fun hexact => ?_⟩
  · unfold Simplify
    rw [hg]
    rfl
  obtain ⟨hmonic, hdvd⟩ := Poly.MCD_gcd hnum hden hexact hg
  obtain ⟨hgn, hgd⟩ := (hdvd g.toPoly).mp dvd_rfl
  have hN := Poly.div_factor a.Num hmonic hgn
  have hD := Poly.div_factor a.Den hmonic hgd
  refine ⟨fun hzero => hden ?_, value_factor hmonic.ne_zero hN hD,
    Poly.cofactors_coprime hmonic.ne_zero hnum hdvd hN hD⟩
  rw [hD, hzero, zero_mul]

theorem Simplify_proper (tol : K) (hnum : a.Num.Proper) (hden : a.Den.toPoly ≠ 0) :
    ∃ c, a.Simplify tol = some c ∧ (Poly.ExactMCD tol a.Num a.Den →
      c.Den.toPoly ≠ 0 ∧ c.value = a.value) := by
  by_cases hzero : a.Num.toPoly = 0
  · obtain ⟨c, hc, hden', hvalue⟩ := Simplify_zero (hnum hzero) hden
    exact ⟨c, hc, fun _ => ⟨hden', hvalue⟩⟩
  · obtain ⟨c, hc, hexact⟩ := Simplify_value tol hzero hden
    exact ⟨c, hc, fun h => ⟨(hexact h).1, (hexact h).2.1⟩⟩

omit [LinearOrder K] in
/-- The quotient rule, whether in lowest terms or not. -/
theorem derivativeOf_div (p : K[X]) {q : K[X]} (hq : q ≠ 0) :
    derivativeOf (algebraMap K[X] (RatFunc K) p / algebraMap K[X] (RatFunc K) q) =
      algebraMap K[X] (RatFunc K) (derivative p * q - derivative q * p) /
        algebraMap K[X] (RatFunc K) (q ^ 2) := by
  have hcross := (RatFunc.num_mul_eq_mul_denom_iff (p := p) hq).mpr rfl
  have hderivative := congrArg derivative hcross
  rw [derivative_mul, derivative_mul] at hderivative
  generalize algebraMap K[X] (RatFunc K) p / algebraMap K[X] (RatFunc K) q = f
    at hcross hderivative ⊢
  unfold derivativeOf
  rw [div_eq_div_iff (RatFunc.algebraMap_ne_zero (pow_ne_zero 2 f.denom_ne_zero))
    (RatFunc.algebraMap_ne_zero (pow_ne_zero 2 hq)), ← map_mul, ← map_mul]
  apply congrArg (algebraMap K[X] (RatFunc K))
  linear_combination q * f.denom * hderivative -
    (derivative f.denom * q + derivative q * f.denom) * hcross

/-- `derive` ends; where nothing is dropped it gives the derivative. -/
theorem derive_value (hden : a.Den.toPoly ≠ 0) : ∃ c, a.derive = some c ∧
    (Poly.ExactMCD defaultTol a.quotientRule.Num a.quotientRule.Den →
      c.value = derivativeOf a.value) := by
  have hden' : a.quotientRule.Den.toPoly = a.Den.toPoly ^ 2 := by
    unfold quotientRule
    rw [Poly.toPoly_mul, sq]
  have hnum' : a.quotientRule.Num.toPoly =
      derivative a.Num.toPoly * a.Den.toPoly - derivative a.Den.toPoly * a.Num.toPoly := by
    unfold quotientRule
    rw [Poly.toPoly_add, Poly.toPoly_unm, Poly.toPoly_mul, Poly.toPoly_mul, Poly.toPoly_derive,
      Poly.toPoly_derive, sub_eq_add_neg]
  have hne : a.quotientRule.Den.toPoly ≠ 0 := by
    rw [hden']
    exact pow_ne_zero 2 hden
  have hproper : a.quotientRule.Num.Proper := Poly.proper_assign _ _
  obtain ⟨c, hc, hexact⟩ := Simplify_proper defaultTol hproper hne
  refine ⟨c, hc, fun h => (hexact h).2.trans ?_⟩
  unfold value
  rw [hnum', hden', derivativeOf_div _ hden]

end RatPoly

end Lua2SC.Num

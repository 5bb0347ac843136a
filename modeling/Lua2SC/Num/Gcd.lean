import Lua2SC.Num.FilterDesign
import Mathlib.Algebra.Order.Ring.Defs

/-!
# `polynomial.lua`: common divisors and multiples

`MCD` divides with remainder until nothing is left, both polynomials scaled by the inverse of the
divisor's leading coefficient before. Of every remainder the coefficients below a tolerance are
dropped, since with rounded numbers none would be zero; `Exact` says that this drops nothing.

`MCD` ends whatever is dropped, since the degree sinks with every turn (`MCDLoop_total`). Where
nothing is dropped it is the monic greatest common divisor, and `MCM` is a least common multiple with
its two cofactors (`MCM_lcm`). For a polynomial without coefficients, of degree -1, `MCD` is 1.
-/

namespace Lua2SC.Num

open Polynomial

variable {K : Type} [Field K] [LinearOrder K]

namespace Poly

/-! ## The program -/

/-- `truncate`, of a number. -/
def truncate (c tol : K) : K := if |c| < tol then 0 else c

/-- `Polynomial_mt.Truncate`. -/
def Truncate (R : Poly K) (minv : K) : Poly K :=
  empty.assign (List.range (R.deg + 1).toNat) fun i => truncate (R.index i) minv

/-- `r.deg == -1 or (r.deg == 0 and isZero(r[0]))`. -/
def IsZero (r : Poly K) : Prop := r.deg = -1 ∨ (r.deg = 0 ∧ r.index 0 = 0)

instance (r : Poly K) : Decidable r.IsZero :=
  inferInstanceAs (Decidable (r.deg = -1 ∨ (r.deg = 0 ∧ r.index 0 = 0)))

/-- The loop of `MCD`, `none` where the fuel runs out. -/
def MCDLoop (tol : K) : ℕ → Poly K → Poly K → Option (Poly K)
  | 0, _, _ => none
  | fuel + 1, a, b =>
    -- normalize
    let fac := 1 / b.index b.deg
    let a := a.scale fac
    let b := b.scale fac
    let r := (a.div b).R.Truncate tol
    if r.IsZero then some (b.scale (1 / b.index b.deg))
    else MCDLoop tol fuel b r

/-- `Polynomial_mt.MCD`; the number 1 is a polynomial where it goes. -/
def MCD (a b : Poly K) (tol : K) : Option (Poly K) :=
  let (a, b) := if a.deg < b.deg then (b, a) else (a, b)
  if b.deg = -1 then some one else MCDLoop tol (b.deg.toNat + 1) a b

/-- What `MCM` returns. -/
structure Multiple (K : Type) [Zero K] where
  mcm : Poly K
  gcd : Poly K
  Af : Poly K
  Bf : Poly K

/-- `Polynomial_mt.MCM`. -/
def MCM (a b : Poly K) (tol : K) : Option (Multiple K) := do
  let gcd ← MCD a b tol
  let A := a.div gcd
  let B := b.div gcd
  return ⟨a.mul B.Q, gcd, A.Q, B.Q⟩

/-! ## Truncation -/

/-- No coefficient is below the tolerance. -/
def Fine (R : Poly K) (tol : K) : Prop := ∀ i : ℕ, R.index i ≠ 0 → tol ≤ |R.index i|

theorem fine_iff (R : Poly K) (tol : K) : R.Fine tol ↔
    ∀ i ∈ List.range (R.deg + 1).toNat, R.index i ≠ 0 → tol ≤ |R.index i| := by
  constructor
  · exact fun h i _ => h i
  · intro h i hne
    refine h i (List.mem_range.mpr ?_) hne
    by_contra hlt
    exact hne (R.index_eq_zero (by omega))

instance (R : Poly K) (tol : K) : Decidable (R.Fine tol) :=
  decidable_of_iff _ (R.fine_iff tol).symm

theorem index_Truncate (R : Poly K) (tol : K) (i : ℕ) :
    (R.Truncate tol).index i = truncate (R.index i) tol := by
  unfold Truncate
  rw [index_assign]
  split
  next => rfl
  next hi =>
    rw [List.mem_range] at hi
    rw [R.index_eq_zero (by omega), index_empty]
    unfold truncate
    exact (ite_self 0).symm

theorem toPoly_Truncate {R : Poly K} {tol : K} (h : R.Fine tol) :
    (R.Truncate tol).toPoly = R.toPoly := by
  refine toPoly_eq_iff.mpr fun i => ?_
  rw [index_Truncate]
  unfold truncate
  split
  next hlt =>
    by_contra hne
    exact absurd hlt (not_lt.mpr (h i (Ne.symm hne)))
  next => rfl

/-- What is dropped does not make the degree greater. -/
theorem degree_Truncate (R : Poly K) (tol : K) :
    (R.Truncate tol).toPoly.degree ≤ R.toPoly.degree := by
  refine degree_mono fun i hi => ?_
  rw [mem_support_iff, coeff_toPoly, index_Truncate] at hi
  rw [mem_support_iff, coeff_toPoly]
  intro hzero
  rw [hzero] at hi
  unfold truncate at hi
  exact hi (ite_self 0)

/-- The test of the loop. -/
theorem isZero_iff (r : Poly K) : r.IsZero ↔ r.toPoly = 0 := by
  constructor
  · intro h
    by_contra hne
    have hdeg := deg_eq hne
    have hlead := index_deg hne
    rcases h with h | ⟨h, h0⟩
    · omega
    · rw [h, h0] at hlead
      exact leadingCoeff_ne_zero.mpr hne hlead.symm
  · intro h
    have hzero : ∀ i : ℕ, r.index i = 0 := fun i => by rw [← coeff_toPoly, h, coeff_zero]
    have hge := r.isDeg.ge
    by_cases hpos : 0 < r.deg
    · have htop := r.isDeg.top hpos
      rw [← index_natCast, hzero] at htop
      exact absurd rfl htop
    · by_cases hdeg : r.deg = -1
      · exact .inl hdeg
      · exact .inr ⟨by omega, hzero 0⟩

/-! ## Euclid's algorithm -/

/-- The divisor of a turn, scaled, and what is left over. -/
def monic (b : Poly K) : Poly K := b.scale (1 / b.index b.deg)

def rest (a b : Poly K) : Poly K := ((a.scale (1 / b.index b.deg)).div b.monic).R

/-- Nothing is dropped that is not zero. -/
def Exact (tol : K) : ℕ → Poly K → Poly K → Prop
  | 0, _, _ => True
  | fuel + 1, a, b => (rest a b).Fine tol ∧
    (¬ (rest a b).IsZero → Exact tol fuel b.monic ((rest a b).Truncate tol))

instance Exact.decidable (tol : K) : ∀ (fuel : ℕ) (a b : Poly K), Decidable (Exact tol fuel a b)
  | 0, _, _ => inferInstanceAs (Decidable True)
  | fuel + 1, _, _ =>
    have := Exact.decidable tol fuel
    inferInstanceAs (Decidable (_ ∧ (_ → _)))

section Turn

variable {a b : Poly K}

omit [LinearOrder K] in
theorem lead_ne_zero (hb : b.toPoly ≠ 0) : 1 / b.index b.deg ≠ 0 := by
  rw [index_deg hb]
  exact one_div_ne_zero (leadingCoeff_ne_zero.mpr hb)

theorem monic_monic (hb : b.toPoly ≠ 0) : b.monic.toPoly.Monic := by
  have hlead : b.toPoly.leadingCoeff ≠ 0 := leadingCoeff_ne_zero.mpr hb
  rw [Monic, monic, toPoly_scale, leadingCoeff_mul, leadingCoeff_C, index_deg hb,
    one_div_mul_cancel hlead]

theorem dvd_monic (hb : b.toPoly ≠ 0) (d : K[X]) : d ∣ b.monic.toPoly ↔ d ∣ b.toPoly := by
  rw [monic, toPoly_scale]
  exact dvd_C_mul (lead_ne_zero hb)

theorem degree_monic (hb : b.toPoly ≠ 0) : b.monic.toPoly.degree = b.toPoly.degree := by
  rw [monic, toPoly_scale, degree_C_mul (lead_ne_zero hb)]

theorem index_monic (hb : b.toPoly ≠ 0) : b.monic.index b.monic.deg = 1 := by
  rw [index_deg (monic_monic hb).ne_zero]
  exact monic_monic hb

/-- The scaled dividend is a multiple of the scaled divisor and what is left over. -/
theorem rest_eq (a : Poly K) (hb : b.toPoly ≠ 0) :
    C (1 / b.index b.deg) * a.toPoly =
      ((a.scale (1 / b.index b.deg)).div b.monic).Q.toPoly * b.monic.toPoly +
        (rest a b).toPoly := by
  have hdiv := div_eq (a.scale (1 / b.index b.deg)) (monic_monic hb).ne_zero
  rw [toPoly_scale, index_monic hb, C_1, one_mul] at hdiv
  exact hdiv

theorem degree_rest (a : Poly K) (hb : b.toPoly ≠ 0) :
    (rest a b).toPoly.degree < b.toPoly.degree := by
  rw [← degree_monic hb]
  exact (div_scaled _ (monic_monic hb).ne_zero).2

/-- A turn keeps the common divisors. -/
theorem dvd_turn (hb : b.toPoly ≠ 0) (d : K[X]) :
    d ∣ b.monic.toPoly ∧ d ∣ (rest a b).toPoly ↔ d ∣ a.toPoly ∧ d ∣ b.toPoly := by
  rw [dvd_monic hb, and_comm, and_congr_left_iff]
  intro hd
  have hd' := Dvd.dvd.mul_left ((dvd_monic hb d).mpr hd)
    ((a.scale (1 / b.index b.deg)).div b.monic).Q.toPoly
  rw [← dvd_C_mul (lead_ne_zero hb) (p := d) (q := a.toPoly), rest_eq a hb, dvd_add_right hd']

end Turn

/-- The loop of `MCD` ends. -/
theorem MCDLoop_total (tol : K) : ∀ (fuel : ℕ) (a b : Poly K), b.toPoly ≠ 0 →
    b.toPoly.natDegree < fuel → ∃ g, MCDLoop tol fuel a b = some g
  | 0, _, _, _, h => absurd h (Nat.not_lt_zero _)
  | fuel + 1, a, b, hb, h => by
    unfold MCDLoop
    dsimp only
    split
    next => exact ⟨_, rfl⟩
    next hne =>
      rw [isZero_iff] at hne
      refine MCDLoop_total tol fuel _ _ hne ?_
      have hlt := (degree_Truncate (rest a b) tol).trans_lt (degree_rest a hb)
      have hnat := (natDegree_lt_natDegree_iff hne).mpr hlt
      exact Nat.lt_of_lt_of_le hnat (Nat.le_of_lt_succ h)

/-- What it ends with is the greatest common divisor. -/
theorem MCDLoop_gcd {tol : K} : ∀ {fuel : ℕ} {a b g : Poly K}, b.toPoly ≠ 0 →
    Exact tol fuel a b → MCDLoop tol fuel a b = some g →
    g.toPoly.Monic ∧ ∀ d, d ∣ g.toPoly ↔ d ∣ a.toPoly ∧ d ∣ b.toPoly
  | 0, _, _, _, _, _, h => by cases h
  | fuel + 1, a, b, g, hb, hexact, h => by
    obtain ⟨hfine, hexact⟩ := hexact
    have hrest := toPoly_Truncate hfine
    unfold MCDLoop at h
    dsimp only at h
    split at h
    next hzero =>
      obtain rfl := Option.some.inj h
      rw [isZero_iff] at hzero
      have hzero' : (rest a b).toPoly = 0 := hrest.symm.trans hzero
      have hone : (b.monic.scale (1 / b.monic.index b.monic.deg)).toPoly = b.monic.toPoly := by
        rw [toPoly_scale, index_monic hb, div_one, C_1, one_mul]
      refine ⟨?_, fun d => ?_⟩
      · exact hone ▸ monic_monic hb
      · show d ∣ (b.monic.scale (1 / b.monic.index b.monic.deg)).toPoly ↔ _
        rw [hone, ← dvd_turn hb, hzero']
        exact (and_iff_left (dvd_zero d)).symm
    next hne =>
      rw [isZero_iff] at hne
      have hne' : ¬ (rest a b).IsZero := fun hzero =>
        hne (hrest.trans ((isZero_iff _).mp hzero))
      obtain ⟨hmonic, hdvd⟩ := MCDLoop_gcd hne (hexact hne') h
      refine ⟨hmonic, fun d => ?_⟩
      rw [hdvd, ← dvd_turn hb]
      exact and_congr_right fun _ => iff_of_eq (congrArg (d ∣ ·) hrest)

/-- `MCD` drops nothing. -/
def ExactMCD (tol : K) (a b : Poly K) : Prop :=
  if a.deg < b.deg then Exact tol (a.deg.toNat + 1) b a else Exact tol (b.deg.toNat + 1) a b

instance (tol : K) (a b : Poly K) : Decidable (ExactMCD tol a b) :=
  inferInstanceAs (Decidable (if a.deg < b.deg then _ else _))

section Divisors

variable {tol : K} {a b g : Poly K}

theorem MCD_eq_loop (ha : a.toPoly ≠ 0) (hb : b.toPoly ≠ 0) :
    MCD a b tol = if a.deg < b.deg then MCDLoop tol (a.deg.toNat + 1) b a
      else MCDLoop tol (b.deg.toNat + 1) a b := by
  have hadeg := deg_eq ha
  have hbdeg := deg_eq hb
  unfold MCD
  by_cases hlt : a.deg < b.deg
  · simp only [if_pos hlt]
    exact if_neg (by omega)
  · simp only [if_neg hlt]
    exact if_neg (by omega)

theorem MCD_total (tol : K) (ha : a.toPoly ≠ 0) (hb : b.toPoly ≠ 0) :
    ∃ g, MCD a b tol = some g := by
  have hadeg := deg_eq ha
  have hbdeg := deg_eq hb
  rw [MCD_eq_loop ha hb]
  split
  next => exact MCDLoop_total tol _ _ _ ha (by omega)
  next => exact MCDLoop_total tol _ _ _ hb (by omega)

theorem MCD_gcd (ha : a.toPoly ≠ 0) (hb : b.toPoly ≠ 0) (hexact : ExactMCD tol a b)
    (h : MCD a b tol = some g) :
    g.toPoly.Monic ∧ ∀ d, d ∣ g.toPoly ↔ d ∣ a.toPoly ∧ d ∣ b.toPoly := by
  rw [MCD_eq_loop ha hb] at h
  unfold ExactMCD at hexact
  split at h
  next hlt =>
    rw [if_pos hlt] at hexact
    obtain ⟨hmonic, hdvd⟩ := MCDLoop_gcd ha hexact h
    exact ⟨hmonic, fun d => (hdvd d).trans and_comm⟩
  next hge =>
    rw [if_neg hge] at hexact
    exact MCDLoop_gcd hb hexact h

/-- Division by a monic factor. -/
theorem div_factor (a : Poly K) (hmonic : g.toPoly.Monic) (hdvd : g.toPoly ∣ a.toPoly) :
    a.toPoly = (a.div g).Q.toPoly * g.toPoly := by
  have hdiv := div_eq a hmonic.ne_zero
  rw [(div_R_eq_zero_iff a hmonic.ne_zero).mpr hdvd, mul_zero, add_zero] at hdiv
  exact hdiv

omit [LinearOrder K] in
/-- The cofactors have nothing in common. -/
theorem cofactors_coprime {p q : K[X]} (hg : g.toPoly ≠ 0) (ha : a.toPoly ≠ 0)
    (hdvd : ∀ d, d ∣ g.toPoly ↔ d ∣ a.toPoly ∧ d ∣ b.toPoly) (hp : a.toPoly = p * g.toPoly)
    (hq : b.toPoly = q * g.toPoly) : IsCoprime p q := by
  refine isCoprime_of_dvd p q (fun hzero => ?_) fun z hz _ hzp hzq => hz ?_
  · rw [hp, hzero.1, zero_mul] at ha
    exact ha rfl
  · have hzg : z * g.toPoly ∣ g.toPoly := by
      rw [hdvd, hp, hq]
      exact ⟨mul_dvd_mul_right hzp _, mul_dvd_mul_right hzq _⟩
    have hone : z * g.toPoly ∣ 1 * g.toPoly := by rwa [one_mul]
    exact isUnit_of_dvd_one ((mul_dvd_mul_iff_right hg).mp hone)

/-- `MCM` ends; where nothing is dropped it is a least common multiple, with the monic greatest
common divisor and the cofactors. -/
theorem MCM_lcm (tol : K) (ha : a.toPoly ≠ 0) (hb : b.toPoly ≠ 0) : ∃ m, MCM a b tol = some m ∧
    (ExactMCD tol a b → m.gcd.toPoly.Monic ∧
      (∀ d, d ∣ m.gcd.toPoly ↔ d ∣ a.toPoly ∧ d ∣ b.toPoly) ∧
      a.toPoly = m.Af.toPoly * m.gcd.toPoly ∧ b.toPoly = m.Bf.toPoly * m.gcd.toPoly ∧
      m.mcm.toPoly = a.toPoly * m.Bf.toPoly ∧
      ∀ c, m.mcm.toPoly ∣ c ↔ a.toPoly ∣ c ∧ b.toPoly ∣ c) := by
  obtain ⟨g, hg⟩ := MCD_total tol ha hb
  refine ⟨⟨a.mul (b.div g).Q, g, (a.div g).Q, (b.div g).Q⟩, ?_, fun hexact => ?_⟩
  · unfold MCM
    rw [hg]
    rfl
  obtain ⟨hmonic, hdvd⟩ := MCD_gcd ha hb hexact hg
  obtain ⟨hga, hgb⟩ := (hdvd g.toPoly).mp dvd_rfl
  have hA := div_factor a hmonic hga
  have hB := div_factor b hmonic hgb
  have hcoprime := cofactors_coprime hmonic.ne_zero ha hdvd hA hB
  refine ⟨hmonic, hdvd, hA, hB, toPoly_mul _ _, fun c => ?_⟩
  dsimp only
  rw [toPoly_mul]
  constructor
  · intro hc
    refine ⟨(dvd_mul_right _ _).trans hc, Dvd.dvd.trans ?_ hc⟩
    refine ⟨(a.div g).Q.toPoly, ?_⟩
    linear_combination (b.div g).Q.toPoly * hA - (a.div g).Q.toPoly * hB
  · rintro ⟨⟨u, hu⟩, ⟨v, hv⟩⟩
    have huv : (a.div g).Q.toPoly * u = (b.div g).Q.toPoly * v := by
      refine mul_right_cancel₀ hmonic.ne_zero ?_
      linear_combination hv - hu - u * hA + v * hB
    have hdvdu : (b.div g).Q.toPoly ∣ u := hcoprime.symm.dvd_of_dvd_mul_left ⟨v, huv⟩
    rw [hu]
    exact mul_dvd_mul_left _ hdvdu

end Divisors

/-- `(X + 1)(X + 2)` and `(X + 1)(X + 3)`. -/
theorem MCM_lcm_quadratic : ∃ m : Multiple ℚ,
    MCM (ofCoefs [2, 3, 1] (by decide +kernel)) (ofCoefs [3, 4, 1] (by decide +kernel))
      (1 / 10 ^ 12) = some m ∧ m.gcd.toPoly.Monic := by
  have hne : ∀ t : Poly ℚ, ¬ t.IsZero → t.toPoly ≠ 0 := fun t h h0 => h ((isZero_iff t).mpr h0)
  obtain ⟨m, hm, hlcm⟩ := MCM_lcm (1 / 10 ^ 12 : ℚ)
    (hne (ofCoefs [2, 3, 1] (by decide +kernel)) (by decide +kernel))
    (hne (ofCoefs [3, 4, 1] (by decide +kernel)) (by decide +kernel))
  exact ⟨m, hm, (hlcm (by decide +kernel)).1⟩

end Poly

end Lua2SC.Num

import Lua2SC.Lib.Feedback
import Lua2SC.Num.Polynomial

/-!
# `filter_design.lua`: the digital filter

`FilterPoly(B,A)` is a quotient of polynomials in `Z^-1`, whose coefficients are listed from
`an*Z^(-n)` to `a0`. `ZRatPoly` takes them for polynomials in `Z` and makes up for it with a
power of `Z`, which pads the shorter of the two with zeros. `filter` reads the coefficients
back from `a0` on and makes the output sample by sample.

The output is not divided by `a0`, although the quotient is of any two polynomials, and
`magnitude` and `phase` evaluate it as it is. `filter_iff` says what that comes to: the output
solves the difference equation only where `a0` is one.

A quotient that is given as such (`B.isRatPoly`) and the `dosimp` of `ZRatPoly`, which
`FilterPoly` does not ask for, are not modelled.
-/

namespace Lua2SC.Num

open Lua2SC.Lua Lua2SC.Feedback
open Polynomial

variable {K : Type*}

section Model

variable [Field K] [DecidableEq K]

/-- `Polynomial(t)`. -/
def Poly.new (t : List K) : LuaM (Poly K) :=
  if h : 1 < t.length → t.getLast? ≠ some 0 then .ok (Poly.ofCoefs t h)
  else .error "zero value in Polynomial max degree coef "

/-- `Polynomial_mt.GetCoefs`. -/
def Poly.GetCoefs (t : Poly K) : List K :=
  (List.range (t.deg + 1).toNat).map fun i : ℕ => t.index i

/-- A quotient of polynomials. -/
structure RatPoly (K : Type*) [Zero K] where
  Num : Poly K
  Den : Poly K

/-- `RationalPoly_mt.__mul`. -/
def RatPoly.mul (a b : RatPoly K) : RatPoly K where
  Num := a.Num.mul b.Num
  Den := a.Den.mul b.Den

/-- `Polynomial{1}`. -/
def Poly.one : Poly K := Poly.ofCoefs [1] fun h => absurd h (Nat.lt_irrefl 1)

def Zpow (i : ℤ) : RatPoly K :=
  let zN := Poly.empty.newindex i.natAbs 1
  if i > 0 then { Num := zN, Den := Poly.one } else { Num := Poly.one, Den := zN }

/-- `ZRatPoly(B,A)`: "expects coefs from an*Z^(-n) to a0". -/
def ZRatPoly (B : List K) (A : Option (List K)) : LuaM (RatPoly K) := do
  let A := A.getD [1]
  let Num ← Poly.new B
  let Den ← Poly.new A
  .ok (RatPoly.mul { Num := Num, Den := Den } (Zpow (Den.deg - Num.deg)))

def FilterPoly (B : List K) (A : Option (List K)) : LuaM (RatPoly K) := ZRatPoly B A

def ArrayReverse (t : List K) : List K := t.reverse

/-- `t[i] or 0`. -/
def orZero (t : List K) (i : ℤ) : K := if 1 ≤ i then t.getD (i - 1).toNat 0 else 0

/-- `for ib,vb in ipairs(b) do`. -/
def feedForward (b inp : List K) (i : ℕ) : K :=
  b.zipIdx.foldl (fun val vb =>
    let ib : ℤ := vb.2 + 1
    val + vb.1 * orZero inp (i - ib + 1)) 0

/-- `for ia=2,#a do`. -/
def feedBack (a res : List K) (i : ℕ) (val : K) : K :=
  (List.range' 2 (a.length - 1)).foldl (fun (val : K) (ia : ℕ) =>
    val - orZero a ia * orZero res (i - ia + 1)) val

/-- `filterpoly_mt.filter(self,inp,len)`. -/
def RatPoly.filter (self : RatPoly K) (inp : List K) (len : Option ℕ) : List K :=
  let a := ArrayReverse self.Den.GetCoefs
  let b := ArrayReverse self.Num.GetCoefs
  (List.range' 1 (len.getD 100)).foldl (fun res i =>
    res ++ [feedBack a res i (feedForward b inp i)]) []

/-- A list from `an*Z^(-n)` to `a0` as a power series in `Z^-1`. -/
noncomputable def zSeries (t : List K) : PowerSeries K := series t.reverse

/-- The samples that are made, as many as one asks for, are those of one sequence `Y` with
`A*Y = B*X`. -/
def Solves (B A inp : List K) (output : Option ℕ → List K) : Prop :=
  ∃ Y : PowerSeries K,
    (∀ len, output len = (List.range (len.getD 100)).map fun i => PowerSeries.coeff i Y) ∧
      zSeries A * Y = zSeries B * series inp

end Model

/-! ## The coefficients -/

section Coefs

variable [Field K]

theorem Poly.GetCoefs_ofCoefs (t : List K) (h : 1 < t.length → t.getLast? ≠ some 0) :
    (Poly.ofCoefs t h).GetCoefs = t := by
  have hlen : ((t.length : ℤ) - 1 + 1).toNat = t.length := by omega
  apply List.ext_getElem
  · rw [Poly.GetCoefs, List.length_map, List.length_range]
    exact hlen
  · intro i hi hi'
    simp only [Poly.GetCoefs, List.getElem_map, List.getElem_range, Poly.index_natCast]
    show coef (ofPairs (t.zipIdx.map Prod.swap)) i = t[i]
    rw [Poly.coef_ofPairs, List.getD_eq_getElem _ _ hi']

/-- Read from the leading one on, the coefficients are those of the reversed polynomial. -/
theorem series_reverse {t : Poly K} (h : t.toPoly ≠ 0) :
    series (ArrayReverse t.GetCoefs) = (t.toPoly.reverse : PowerSeries K) := by
  have hdeg : (t.deg + 1).toNat = t.toPoly.natDegree + 1 := by
    rw [Poly.deg_eq h]
    omega
  ext i
  rw [coeff_series, Polynomial.coeff_coe, coeff_reverse, ArrayReverse, Poly.GetCoefs, hdeg]
  by_cases hi : i ≤ t.toPoly.natDegree
  · rw [revAt_le hi, Poly.coeff_toPoly, List.getD_eq_getElem _ _ (by simp; omega),
      List.getElem_reverse, List.getElem_map, List.getElem_range]
    congr 2
    simp
  · rw [List.getD_eq_default _ _ (by simp; omega), revAt_eq_self_of_lt (not_le.mp hi),
      coeff_eq_zero_of_natDegree_lt (not_le.mp hi)]

theorem series_eq_zero {t : Poly K} (h : t.toPoly = 0) : series (ArrayReverse t.GetCoefs) = 0 := by
  rw [series_eq_zero_iff]
  intro c hc
  obtain ⟨i, -, rfl⟩ := List.mem_map.mp (List.mem_reverse.mp hc)
  rw [← Poly.coeff_toPoly, h, coeff_zero]

theorem toPoly_one : (Poly.one : Poly K).toPoly = 1 := by
  ext i
  rw [Poly.coeff_toPoly, Poly.index_natCast, coeff_one]
  show coef (ofPairs (([1] : List K).zipIdx.map Prod.swap)) i = _
  rw [Poly.coef_ofPairs]
  cases i with
  | zero => rfl
  | succ i => rfl

variable [DecidableEq K]

theorem toPoly_power (m : ℕ) : (Poly.empty.newindex m (1 : K)).toPoly = X ^ m := by
  have h := Poly.toPoly_newindex (Poly.empty : Poly K) m 1
  rw [Poly.index_empty, add_zero, Poly.toPoly_empty, zero_add, C_1, one_mul] at h
  exact h

/-- Both sides of `Zpow` are powers: one of them is the zeroth. -/
theorem toPoly_Zpow (i : ℤ) : ∃ m n : ℕ, (Zpow i : RatPoly K).Num.toPoly = X ^ m ∧
    (Zpow i : RatPoly K).Den.toPoly = X ^ n := by
  unfold Zpow
  dsimp only
  split
  · exact ⟨i.natAbs, 0, toPoly_power _, by rw [toPoly_one, pow_zero]⟩
  · exact ⟨0, i.natAbs, by rw [toPoly_one, pow_zero], toPoly_power _⟩

/-- **The padding** goes: times a power of `Z`, the coefficients from the leading one on are
the same. -/
theorem series_mul_power (t : Poly K) {p : Poly K} {m : ℕ} (hp : p.toPoly = X ^ m) :
    series (ArrayReverse (t.mul p).GetCoefs) = series (ArrayReverse t.GetCoefs) := by
  by_cases hzero : t.toPoly = 0
  · have hmul : (t.mul p).toPoly = 0 := by rw [Poly.toPoly_mul, hzero, zero_mul]
    rw [series_eq_zero hzero, series_eq_zero hmul]
  · have hmul : (t.mul p).toPoly ≠ 0 := by
      rw [Poly.toPoly_mul, hp]
      exact mul_ne_zero hzero (pow_ne_zero m X_ne_zero)
    rw [series_reverse hmul, Poly.toPoly_mul, hp, reverse_mul_X_pow, ← series_reverse hzero]

theorem Poly.new_ok_iff {t : List K} {p : Poly K} :
    Poly.new t = .ok p ↔ ∃ h : 1 < t.length → t.getLast? ≠ some 0, p = Poly.ofCoefs t h := by
  rw [Poly.new]
  split
  next h => simp only [Except.ok.injEq, exists_prop_of_true h, eq_comm]
  next h => simp only [reduceCtorEq, exists_prop_of_false h]

theorem FilterPoly_ok_iff {B A : List K} {F : RatPoly K} :
    FilterPoly B (some A) = .ok F ↔ ∃ Num, Poly.new B = .ok Num ∧ ∃ Den, Poly.new A = .ok Den ∧
      RatPoly.mul { Num := Num, Den := Den } (Zpow (Den.deg - Num.deg)) = F := by
  simp only [FilterPoly, ZRatPoly, bind_ok, Option.getD_some, Except.ok.injEq]

/-- There is a filter where the highest coefficients are not zero. -/
theorem exists_FilterPoly {B A : List K} (hB : B.getLast? ≠ some 0) (hA : A.getLast? ≠ some 0) :
    ∃ F, FilterPoly B (some A) = .ok F :=
  ⟨_, FilterPoly_ok_iff.mpr ⟨_, Poly.new_ok_iff.mpr ⟨fun _ => hB, rfl⟩,
    _, Poly.new_ok_iff.mpr ⟨fun _ => hA, rfl⟩, rfl⟩⟩

/-- What `filter` reads back is what `FilterPoly` was given. -/
theorem FilterPoly_series {B A : List K} {F : RatPoly K} (hF : FilterPoly B (some A) = .ok F) :
    series (ArrayReverse F.Num.GetCoefs) = zSeries B ∧
      series (ArrayReverse F.Den.GetCoefs) = zSeries A := by
  obtain ⟨Num, hNum, Den, hDen, rfl⟩ := FilterPoly_ok_iff.mp hF
  obtain ⟨hB, rfl⟩ := Poly.new_ok_iff.mp hNum
  obtain ⟨hA, rfl⟩ := Poly.new_ok_iff.mp hDen
  obtain ⟨m, n, hm, hn⟩ := toPoly_Zpow (K := K) ((Poly.ofCoefs A hA).deg - (Poly.ofCoefs B hB).deg)
  constructor
  · rw [RatPoly.mul, series_mul_power _ hm, Poly.GetCoefs_ofCoefs]
    rfl
  · rw [RatPoly.mul, series_mul_power _ hn, Poly.GetCoefs_ofCoefs]
    rfl

end Coefs

/-! ## The samples -/

section Samples

variable [Field K]

/-- The sample `j` before the current one. -/
theorem orZero_before (t : List K) (n j : ℕ) :
    orZero t ((n + 1 : ℕ) - (j + 1 : ℕ) + 1) = if j ≤ n then t.getD (n - j) 0 else 0 := by
  rw [orZero]
  by_cases hj : j ≤ n
  · rw [if_pos hj, if_pos (by omega)]
    congr 1
    omega
  · rw [if_neg hj, if_neg (by omega)]

theorem feedForward_eq (b inp : List K) (n : ℕ) :
    feedForward b inp (n + 1) = PowerSeries.coeff n (series b * series inp) := by
  -- the loop is a sum over the coefficients
  have hloop : ∀ g : ℕ → K, b.zipIdx.foldl (fun val vb => val + vb.1 * g vb.2) 0 =
      ∑ j ∈ Finset.range b.length, b.getD j 0 * g j := by
    intro g
    induction b using List.reverseRecOn with
    | nil => rfl
    | append_singleton b v ih =>
      have hinit : ∀ j ∈ Finset.range b.length, (b ++ [v]).getD j 0 * g j = b.getD j 0 * g j := by
        intro j hj
        rw [List.getD_append _ _ _ _ (Finset.mem_range.mp hj)]
      have hlast : (b ++ [v]).getD b.length 0 = v := by
        rw [List.getD_append_right _ _ _ _ le_rfl, Nat.sub_self]
        rfl
      rw [List.zipIdx_append, List.foldl_append, ih, List.length_append, List.length_singleton,
        Finset.sum_range_succ, Finset.sum_congr rfl hinit, hlast]
      simp
  rw [feedForward, coeff_series_mul]
  refine (hloop fun j => orZero inp ((n + 1 : ℕ) - (j + 1 : ℕ) + 1)).trans ?_
  rw [sum_getD b (m := n + 1)]
  · refine Finset.sum_congr rfl fun j hj => ?_
    rw [orZero_before, if_pos (Nat.lt_succ_iff.mp (Finset.mem_range.mp hj))]
  · intro j hj
    rw [orZero_before, if_neg (by omega)]

/-- `for ia=2,#a do` leaves the first coefficient out. -/
theorem orZero_tail (a : List K) (j : ℕ) : orZero a (j + 2 : ℕ) = a.tail.getD j 0 := by
  have hidx : (((j + 2 : ℕ) : ℤ) - 1).toNat = j + 1 := by omega
  rw [orZero, if_pos (by omega), hidx, List.getD_eq_getElem?_getD, List.getD_eq_getElem?_getD,
    List.getElem?_tail]

/-- The samples that are there are those before the current one. -/
theorem orZero_made (y : ℕ → K) (n j : ℕ) :
    orZero ((List.range n).map y) ((n + 1 : ℕ) - (j + 2 : ℕ) + 1) =
      if j < n then y (n - (j + 1)) else 0 := by
  rw [orZero_before _ n (j + 1)]
  by_cases hj : j < n
  · rw [if_pos hj, if_pos (Nat.succ_le_iff.mpr hj), List.getD_eq_getElem _ _ (by simp; omega),
      List.getElem_map, List.getElem_range]
  · rw [if_neg hj, if_neg (mt Nat.succ_le_iff.mp hj)]

theorem feedBack_eq (a : List K) (y : ℕ → K) (n : ℕ) (val : K) :
    feedBack a ((List.range n).map y) (n + 1) val =
      val - ∑ j ∈ Finset.range n, a.getD (j + 1) 0 * y (n - (j + 1)) := by
  have hloop : ∀ (g : ℕ → K) (m : ℕ), (List.range' 2 m).foldl (fun val ia => val - g ia) val =
      val - ∑ j ∈ Finset.range m, g (j + 2) := by
    intro g m
    induction m with
    | zero => simp
    | succ m ih =>
      rw [List.range'_1_concat, List.foldl_append, ih, Finset.sum_range_succ, Nat.add_comm 2 m]
      simp [sub_sub]
  rw [feedBack, ← List.length_tail]
  refine (hloop (fun ia => orZero a ia * orZero _ ((n + 1 : ℕ) - ia + 1)) _).trans ?_
  congr 1
  simp only [orZero_tail, orZero_made]
  -- what is not made yet does not count, and no more does what is not a coefficient
  rw [sum_getD a.tail fun j hj => if_neg (not_lt.mpr hj)]
  refine Finset.sum_congr rfl fun j hj => ?_
  rw [if_pos (Finset.mem_range.mp hj), List.getD_eq_getElem?_getD, List.getElem?_tail,
    ← List.getD_eq_getElem?_getD]

/-- The samples are those of one sequence, as many as one asks for. -/
theorem exists_samples (F : RatPoly K) (inp : List K) : ∃ Y : PowerSeries K,
    (∀ len, F.filter inp len = (List.range (len.getD 100)).map fun i => PowerSeries.coeff i Y) ∧
      Feeds (series (ArrayReverse F.Den.GetCoefs)) (series (ArrayReverse F.Num.GetCoefs))
        (series inp) Y := by
  obtain ⟨y, hy, hnext⟩ := exists_loop fun res i =>
    feedBack (ArrayReverse F.Den.GetCoefs) res i
      (feedForward (ArrayReverse F.Num.GetCoefs) inp i)
  refine ⟨PowerSeries.mk y, fun len => ?_, fun n => ?_⟩
  · simp only [PowerSeries.coeff_mk]
    exact hy _
  · rw [PowerSeries.coeff_mk, hnext, feedBack_eq, feedForward_eq]
    simp only [PowerSeries.coeff_mk, coeff_series]

end Samples

/-! ## The difference equation -/

section Equation

variable [Field K]

theorem constantCoeff_zSeries (t : List K) :
    PowerSeries.constantCoeff (zSeries t) = t.getLast?.getD 0 := by
  rw [← PowerSeries.coeff_zero_eq_constantCoeff_apply, zSeries, coeff_series,
    List.getD_eq_getElem?_getD, ← List.head?_eq_getElem?, List.head?_reverse]

theorem zSeries_eq_zero_iff {t : List K} : zSeries t = 0 ↔ ∀ c ∈ t, c = 0 := by
  simp only [zSeries, series_eq_zero_iff, List.mem_reverse]

theorem solves_iff {B A inp : List K} {output : Option ℕ → List K} {Y : PowerSeries K}
    (hY : ∀ len, output len = (List.range (len.getD 100)).map fun i => PowerSeries.coeff i Y) :
    Solves B A inp output ↔ zSeries A * Y = zSeries B * series inp := by
  constructor
  · intro ⟨Y', hY', heq⟩
    have hsame : Y' = Y := by
      ext n
      have hlists := (hY' (some (n + 1))).symm.trans (hY (some (n + 1)))
      exact (List.map_inj_left.mp hlists) n (List.mem_range.mpr n.lt_succ_self)
    rw [← hsame]
    exact heq
  · intro heq
    exact ⟨Y, hY, heq⟩

variable [DecidableEq K]

/-- **The difference equation**: the output solves it if the coefficient of `Z^0` in `A` is one,
and else only where nothing comes in or nothing comes through. -/
theorem filter_iff {B A : List K} {F : RatPoly K} (hF : FilterPoly B (some A) = .ok F)
    (inp : List K) :
    Solves B A inp (F.filter inp) ↔
      A.getLast? = some 1 ∨ (∀ b ∈ B, b = 0) ∨ ∀ x ∈ inp, x = 0 := by
  obtain ⟨hNum, hDen⟩ := FilterPoly_series hF
  obtain ⟨Y, hY, hfeeds⟩ := exists_samples F inp
  rw [hNum, hDen] at hfeeds
  have hone : PowerSeries.constantCoeff (zSeries A) = 1 ↔ A.getLast? = some 1 := by
    rw [constantCoeff_zSeries]
    cases A.getLast? with
    | none => simp
    | some a => simp
  rw [solves_iff hY, hfeeds.mul_eq_iff, hone, mul_eq_zero, zSeries_eq_zero_iff,
    series_eq_zero_iff]

/-- A one-pole filter. -/
theorem filter_iff_pole : ∃ F : RatPoly ℚ, FilterPoly [3] (some [-1 / 2, 1]) = .ok F ∧
    Solves [3] [-1 / 2, 1] [1, 4] (F.filter [1, 4]) := by
  obtain ⟨F, hF⟩ := exists_FilterPoly (B := [(3 : ℚ)]) (A := [-1 / 2, 1]) (by simp) (by simp)
  exact ⟨F, hF, (filter_iff hF [1, 4]).mpr (Or.inl rfl)⟩

/-- `1/2` comes out as one. -/
theorem not_solves_half : ∃ F : RatPoly ℚ, FilterPoly [1] (some [2]) = .ok F ∧
    F.filter [1] (some 1) = [1] ∧ ¬Solves [1] [2] [1] (F.filter [1]) := by
  have hrun : ∃ F : RatPoly ℚ, FilterPoly [1] (some [2]) = .ok F ∧ F.filter [1] (some 1) = [1] :=
    ⟨_, rfl, by decide +kernel⟩
  obtain ⟨F, hF, hout⟩ := hrun
  refine ⟨F, hF, hout, ?_⟩
  intro ⟨Y, hY, heq⟩
  have hmade : PowerSeries.coeff 0 Y = 1 := by
    have hlist := hout.symm.trans (hY (some 1))
    simpa using hlist.symm
  have hfirst := congrArg (PowerSeries.coeff 0) heq
  simp [PowerSeries.coeff_mul, zSeries, hmade] at hfirst

end Equation

end Lua2SC.Num

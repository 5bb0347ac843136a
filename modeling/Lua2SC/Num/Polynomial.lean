import Lua2SC.Lib.Lua

/-!
# `polynomial.lua`: division

A polynomial is a table of coefficients with its degree kept beside it: `__newindex` moves
the degree whenever a coefficient is set, and looks for the next one below when the leading
coefficient goes. `Poly` carries what that keeps true.

`__div` scales dividend and divisor by the inverse of the divisor's leading coefficient and
then cancels the leading terms of the dividend one by one. The quotient is that of the
polynomials it was asked for; what is left over belongs to the scaled dividend and is not
scaled back. `divides_iff` says when it is their remainder all the same.

Coefficients are in a field and exact. A quotient of rational functions is not modelled.
-/

namespace Lua2SC.Num

open Lua2SC.Lua
open Polynomial

variable {K : Type*}

/-- `rawget(pol,key) or 0`. -/
def coef [Zero K] (pol : LuaTable ℕ K) (key : ℕ) : K := (pol.lookup key).getD 0

theorem coef_insert [Zero K] (pol : LuaTable ℕ K) (key : ℕ) (val : K) (i : ℕ) :
    coef (pol.insert key val) i = if i = key then val else coef pol i := by
  rw [coef, coef]
  split
  next h => rw [h, AList.lookup_insert, Option.getD_some]
  next h => rw [AList.lookup_insert_ne h]

theorem coef_erase [Zero K] (pol : LuaTable ℕ K) (key i : ℕ) :
    coef (pol.erase key) i = if i = key then 0 else coef pol i := by
  rw [coef, coef]
  split
  next h => rw [h, AList.lookup_erase, Option.getD_none]
  next h => rw [AList.lookup_erase_ne h]

/-! ## The degree -/

section Degree

variable [Zero K]

/-- What holds of a degree and its coefficients. The constructor may leave zeros below the
degree and, for `Polynomial{0}`, at it. -/
structure IsDeg (deg : ℤ) (pol : LuaTable ℕ K) : Prop where
  ge : -1 ≤ deg
  above : ∀ i : ℕ, deg < i → coef pol i = 0
  top : 0 < deg → coef pol deg.toNat ≠ 0

/-- A new coefficient may be the leading one. -/
theorem IsDeg.insert {deg : ℤ} {pol : LuaTable ℕ K} (h : IsDeg deg pol) (key : ℕ) {val : K}
    (hval : val ≠ 0) : IsDeg (max deg key) (pol.insert key val) where
  ge := h.ge.trans (le_max_left _ _)
  above i hi := by
    obtain ⟨hdeg, hkey⟩ := max_lt_iff.mp hi
    rw [coef_insert, if_neg (by omega)]
    exact h.above i hdeg
  top hpos := by
    rw [coef_insert]
    split
    next => exact hval
    next hne =>
      have hdeg : max deg key = deg := by omega
      rw [hdeg] at hpos ⊢
      exact h.top hpos

variable [DecidableEq K]

/-- `for i=key-1,-1,-1 do`: the degree below `key`. -/
def degBelow (pol : LuaTable ℕ K) : ℕ → ℤ
  | 0 => -1
  | i + 1 => if coef pol i ≠ 0 then i else degBelow pol i

theorem degBelow_lt (pol : LuaTable ℕ K) (key : ℕ) : degBelow pol key < key := by
  induction key with
  | zero => exact neg_one_lt_zero
  | succ i ih =>
    rw [degBelow]
    split
    · omega
    · omega

theorem degBelow_ge (pol : LuaTable ℕ K) (key : ℕ) : -1 ≤ degBelow pol key := by
  induction key with
  | zero => exact le_rfl
  | succ i ih =>
    rw [degBelow]
    split
    · omega
    · exact ih

theorem coef_eq_zero_of_degBelow {pol : LuaTable ℕ K} {key i : ℕ} (hi : i < key)
    (h : degBelow pol key < i) : coef pol i = 0 := by
  induction key with
  | zero => omega
  | succ k ih =>
    rw [degBelow] at h
    split at h
    · omega
    next hzero =>
      rcases Nat.lt_succ_iff_lt_or_eq.mp hi with hlt | rfl
      · exact ih hlt h
      · exact not_not.mp hzero

theorem coef_degBelow {pol : LuaTable ℕ K} {key : ℕ} (h : 0 ≤ degBelow pol key) :
    coef pol (degBelow pol key).toNat ≠ 0 := by
  induction key with
  | zero => exact absurd h (Int.negSucc_not_nonneg 0).mp
  | succ k ih =>
    rw [degBelow] at h ⊢
    split at h
    next hne =>
      rw [if_pos hne]
      exact hne
    next hzero =>
      rw [if_neg hzero]
      exact ih h

/-- The coefficient that goes may be the leading one. -/
theorem IsDeg.erase {deg : ℤ} {pol : LuaTable ℕ K} (h : IsDeg deg pol) (key : ℕ) :
    IsDeg (if deg = key then degBelow pol key else deg) (pol.erase key) := by
  split
  next hdeg =>
    refine ⟨degBelow_ge _ _, fun i hi => ?_, fun hpos => ?_⟩
    · rw [coef_erase]
      split
      next => rfl
      next hne =>
        rcases Nat.lt_or_gt_of_ne hne with hlt | hgt
        · exact coef_eq_zero_of_degBelow hlt hi
        · exact h.above i (by omega)
    · have hlt := degBelow_lt pol key
      rw [coef_erase, if_neg (by omega)]
      exact coef_degBelow hpos.le
  next hdeg =>
    refine ⟨h.ge, fun i hi => ?_, fun hpos => ?_⟩
    · rw [coef_erase]
      split
      next => rfl
      next => exact h.above i hi
    · rw [coef_erase, if_neg (by omega)]
      exact h.top hpos

end Degree

/-- A polynomial. -/
structure Poly (K : Type*) [Zero K] where
  deg : ℤ
  pol : LuaTable ℕ K
  isDeg : IsDeg deg pol

namespace Poly

section Index

variable [Zero K]

/-- `Polynomial_mt.__index` on an integer. -/
def index (t : Poly K) (key : ℤ) : K := if 0 ≤ key then coef t.pol key.toNat else 0

theorem index_natCast (t : Poly K) (i : ℕ) : t.index i = coef t.pol i :=
  if_pos (Int.natCast_nonneg i)

theorem index_eq_zero (t : Poly K) {i : ℕ} (h : t.deg < i) : t.index i = 0 := by
  rw [index_natCast]
  exact t.isDeg.above i h

/-- `Polynomial{}`. -/
def empty : Poly K where
  deg := -1
  pol := ∅
  isDeg := ⟨le_rfl, fun _ _ => rfl, fun h => absurd h (by decide)⟩

@[simp] theorem index_empty (i : ℕ) : (empty : Poly K).index i = 0 := rfl

variable [DecidableEq K]

/-- `Polynomial_mt.__newindex` on an integer key; nil and zero do the same. -/
def newindex (t : Poly K) (key : ℕ) (val : K) : Poly K :=
  if hval : val ≠ 0 then
    -- `if t.deg < key then t.deg = key`
    { deg := max t.deg key
      pol := t.pol.insert key val
      isDeg := t.isDeg.insert key hval }
  else
    { deg := if t.deg = key then degBelow t.pol key else t.deg
      pol := t.pol.erase key
      isDeg := t.isDeg.erase key }

@[simp] theorem index_newindex (t : Poly K) (key : ℕ) (val : K) (i : ℕ) :
    (t.newindex key val).index i = if i = key then val else t.index i := by
  rw [index_natCast, index_natCast, newindex]
  split
  next => exact coef_insert _ _ _ _
  next hzero => rw [coef_erase, not_not.mp hzero]

/-- A loop that sets the coefficients at `keys`. -/
def assign (t : Poly K) (keys : List ℕ) (f : ℕ → K) : Poly K :=
  keys.foldl (fun t key => t.newindex key (f key)) t

theorem index_assign (t : Poly K) (keys : List ℕ) (f : ℕ → K) (i : ℕ) :
    (t.assign keys f).index i = if i ∈ keys then f i else t.index i := by
  induction keys using List.reverseRecOn with
  | nil => rfl
  | append_singleton keys key ih =>
    rw [assign, List.foldl_concat, index_newindex]
    change (if i = key then f key else (t.assign keys f).index i) = _
    rw [ih]
    by_cases hkey : i = key
    · subst hkey
      simp
    · simp [hkey]

end Index

section Coefs

variable [Zero K]

/-- The entries of `pol` are the given coefficients. -/
theorem coef_ofPairs (t : List K) (i : ℕ) :
    coef (ofPairs (t.zipIdx.map Prod.swap)) i = t.getD i 0 := by
  have hnd : ((t.zipIdx.map Prod.swap).map Prod.fst).Nodup := by
    rw [List.map_map]
    exact List.nodup_zipIdx_map_snd t
  have hmem : ∀ v, (ofPairs (t.zipIdx.map Prod.swap)).lookup i = some v ↔ t[i]? = some v := by
    intro v
    rw [lookup_ofPairs hnd, List.mem_map_swap, List.mem_zipIdx_iff_getElem?]
  rw [coef, List.getD_eq_getElem?_getD, Option.ext hmem]

/-- `Polynomial(t)`, "expects coefs from a0 to an": its assertion is `h`. -/
def ofCoefs (t : List K) (h : 1 < t.length → t.getLast? ≠ some 0) : Poly K where
  deg := (t.length : ℤ) - 1
  pol := ofPairs (t.zipIdx.map Prod.swap)
  isDeg := by
    refine ⟨by omega, fun i hi => ?_, fun hpos => ?_⟩
    · rw [coef_ofPairs, List.getD_eq_default _ _ (by omega)]
    · have hlen : ((t.length : ℤ) - 1).toNat = t.length - 1 := by omega
      intro hzero
      rw [coef_ofPairs, hlen, List.getD_eq_getElem?_getD] at hzero
      have hlast := h (by omega)
      rw [List.getLast?_eq_getElem?] at hlast
      obtain ⟨v, hv⟩ : ∃ v, t[t.length - 1]? = some v := ⟨_, List.getElem?_eq_getElem (by omega)⟩
      rw [hv] at hzero hlast
      exact hlast (congrArg some hzero)

end Coefs

/-! ## The polynomial -/

variable [Field K]

/-- The first `n` coefficients as a polynomial. -/
noncomputable def below (t : Poly K) (n : ℕ) : K[X] :=
  PowerSeries.trunc n (PowerSeries.mk fun i => t.index i)

theorem coeff_below (t : Poly K) (n i : ℕ) :
    (t.below n).coeff i = if i < n then t.index i else 0 := by
  rw [below, PowerSeries.coeff_trunc, PowerSeries.coeff_mk]

theorem below_succ (t : Poly K) (n : ℕ) :
    t.below (n + 1) = t.below n + C (t.index n) * X ^ n := by
  rw [below, PowerSeries.trunc_succ, PowerSeries.coeff_mk, C_mul_X_pow_eq_monomial]
  rfl

/-- The polynomial itself. -/
noncomputable def toPoly (t : Poly K) : K[X] := t.below (t.deg + 1).toNat

@[simp] theorem coeff_toPoly (t : Poly K) (i : ℕ) : t.toPoly.coeff i = t.index i := by
  rw [toPoly, coeff_below]
  split
  · rfl
  · exact (t.index_eq_zero (by omega)).symm

theorem toPoly_eq_iff {s t : Poly K} : s.toPoly = t.toPoly ↔ ∀ i : ℕ, s.index i = t.index i := by
  simp only [Polynomial.ext_iff, coeff_toPoly]

theorem toPoly_empty : (empty : Poly K).toPoly = 0 := by
  ext i
  rw [coeff_toPoly, index_empty, coeff_zero]

/-- No coefficient is left out. -/
theorem below_eq_toPoly {t : Poly K} {n : ℕ} (h : ∀ i : ℕ, n ≤ i → t.index i = 0) :
    t.below n = t.toPoly := by
  ext i
  rw [coeff_below, coeff_toPoly]
  split
  · rfl
  · exact (h i (by omega)).symm

/-- Where there is a coefficient, `deg` is the degree and not zero the coefficient there. -/
theorem deg_eq {t : Poly K} (h : t.toPoly ≠ 0) : t.deg = t.toPoly.natDegree := by
  have hne : t.toPoly.coeff t.toPoly.natDegree ≠ 0 := leadingCoeff_ne_zero.mpr h
  rw [coeff_toPoly] at hne
  have hle : (t.toPoly.natDegree : ℤ) ≤ t.deg := by
    by_contra hlt
    exact hne (t.index_eq_zero (by omega))
  rcases hle.eq_or_lt with heq | hlt
  · exact heq.symm
  · -- a zero at the degree is only allowed at degree 0
    have htop := t.isDeg.top (by omega)
    rw [← index_natCast, ← coeff_toPoly] at htop
    have := le_natDegree_of_ne_zero htop
    omega

theorem index_deg {t : Poly K} (h : t.toPoly ≠ 0) : t.index t.deg = t.toPoly.leadingCoeff := by
  rw [deg_eq h, ← coeff_toPoly, leadingCoeff]

/-! ## The operators -/

variable [DecidableEq K]

/-- `Polynomial_mt.__mul` with a number: `for k,v in pairs(a.pol)`. -/
def scale (a : Poly K) (b : K) : Poly K := empty.assign a.pol.keys fun k => a.index k * b

/-- `Polynomial_mt.__mul`. -/
def mul (A B : Poly K) : Poly K :=
  (List.range (A.deg + 1).toNat).foldl (fun res i =>
    (List.range (B.deg + 1).toNat).foldl (fun res j =>
      res.newindex (i + j) (A.index i * B.index j + res.index (i + j : ℕ))) res) empty

/-- `Polynomial_mt.__add`. -/
def add (A B : Poly K) : Poly K :=
  empty.assign (List.range (max A.deg B.deg + 1).toNat) fun i => A.index i + B.index i

/-- `for j=B.deg+k-1,k,-1 do`, with `j = k + i`. -/
def cancel (Q B : Poly K) (k : ℕ) : ℕ → Poly K → Poly K
  | 0, R => R
  | i + 1, R =>
    cancel Q B k i
      (R.newindex (k + i) (R.index (k + i : ℕ) - Q.index k * B.index i))

/-- A quotient and what is left over. -/
structure Division (K : Type*) [Zero K] where
  Q : Poly K
  R : Poly K

/-- `for k=A.deg-B.deg,0,-1 do`. -/
def cancelDown (B : Poly K) : ℕ → Division K → Division K
  | 0, d => d
  | k + 1, d =>
    let Q := d.Q.newindex k (d.R.index (B.deg + k) / B.index B.deg)
    cancelDown B k { Q := Q, R := cancel Q B k B.deg.toNat d.R }

/-- `Polynomial_mt.__div`. -/
def div (a b : Poly K) : Division K :=
  -- normalize
  let fac := 1 / b.index b.deg
  let A := a.scale fac
  let B := b.scale fac
  let R := empty.assign (List.range (A.deg + 1).toNat) fun j => A.index j
  let d := cancelDown B (A.deg - B.deg + 1).toNat { Q := empty, R := R }
  -- the cancelled terms are cleared; the rest is not multiplied by `B[B.deg]` again
  { Q := d.Q
    R := d.R.assign (List.range' B.deg.toNat (A.deg - B.deg + 1).toNat) fun _ => 0 }

/-- `A = Q*B + R`, with nothing in `R` or less than in `B`. -/
def Divides (a b : Poly K) : Prop :=
  (∀ i : ℕ, a.index i = (((a.div b).Q.mul b).add (a.div b).R).index i) ∧
    ((∀ i : ℕ, (a.div b).R.index i = 0) ∨ (a.div b).R.deg < b.deg)

/-! ## What is computed -/

/-- Adding to one coefficient. -/
theorem toPoly_newindex (t : Poly K) (key : ℕ) (c : K) :
    (t.newindex key (c + t.index key)).toPoly = t.toPoly + C c * X ^ key := by
  ext i
  rw [coeff_add, coeff_toPoly, coeff_toPoly, coeff_C_mul_X_pow, index_newindex]
  split
  next h => rw [h, add_comm]
  next => exact (add_zero _).symm

theorem toPoly_scale (a : Poly K) (b : K) : (a.scale b).toPoly = C b * a.toPoly := by
  ext i
  rw [coeff_toPoly, coeff_C_mul, coeff_toPoly, scale, index_assign]
  split
  next => exact mul_comm _ _
  next hkey =>
    have hnone : a.pol.lookup i = none := AList.lookup_eq_none.mpr hkey
    rw [index_natCast a, coef, hnone]
    exact (mul_zero b).symm

theorem toPoly_add (A B : Poly K) : (A.add B).toPoly = A.toPoly + B.toPoly := by
  ext i
  rw [coeff_add, coeff_toPoly, coeff_toPoly, coeff_toPoly, add, index_assign]
  split
  next => rfl
  next hi =>
    rw [List.mem_range] at hi
    rw [A.index_eq_zero (by omega), B.index_eq_zero (by omega), add_zero]
    rfl

/-- One row of the product. -/
theorem toPoly_mul_row (A B res : Poly K) (i m : ℕ) :
    ((List.range m).foldl (fun res j =>
      res.newindex (i + j) (A.index i * B.index j + res.index (i + j : ℕ))) res).toPoly =
      res.toPoly + C (A.index i) * X ^ i * B.below m := by
  induction m with
  | zero => rw [below, PowerSeries.trunc_zero', mul_zero, add_zero]; rfl
  | succ m ih =>
    rw [List.range_succ, List.foldl_concat, toPoly_newindex, ih, below_succ, C_mul, pow_add]
    ring

theorem toPoly_mul (A B : Poly K) : (A.mul B).toPoly = A.toPoly * B.toPoly := by
  have hrows : ∀ n : ℕ, ((List.range n).foldl (fun res i =>
      (List.range (B.deg + 1).toNat).foldl (fun res j =>
        res.newindex (i + j) (A.index i * B.index j + res.index (i + j : ℕ))) res) empty).toPoly =
        A.below n * B.toPoly := by
    intro n
    induction n with
    | zero => rw [below, PowerSeries.trunc_zero', zero_mul]; exact toPoly_empty
    | succ n ih =>
      rw [List.range_succ, List.foldl_concat, toPoly_mul_row, ih, below_succ, add_mul]
      rfl
  exact hrows _

/-! ## Division -/

theorem index_cancel (Q B R : Poly K) (k m i : ℕ) :
    (cancel Q B k m R).index i =
      if k ≤ i ∧ i < k + m then R.index i - Q.index k * B.index (i - k : ℕ) else R.index i := by
  induction m generalizing R with
  | zero => exact (if_neg (by omega)).symm
  | succ m ih =>
    rw [cancel, ih, index_newindex]
    by_cases hlast : i = k + m
    · have hsub : k + m - k = m := by omega
      subst hlast
      rw [if_neg (by omega), if_pos rfl, if_pos (by omega), hsub]
    · rw [if_neg hlast]
      exact if_congr (by omega) rfl rfl

/-- One term of the quotient: what it takes from the dividend is what is cancelled, and the
term it is there for is not looked at again. -/
theorem cancel_step {B : Poly K} {n : ℕ} (hdeg : B.deg = n) (hmonic : B.index n = 1) (k : ℕ)
    (R : Poly K) {Q : Poly K} (hQ : Q.index k = R.index (n + k : ℕ)) :
    C (Q.index k) * X ^ k * B.toPoly + (cancel Q B k n R).below (n + k) =
      R.below (n + (k + 1)) := by
  ext i
  -- below the leading term of the row, at it, and above
  rw [coeff_add, mul_assoc, coeff_C_mul, coeff_X_pow_mul', coeff_toPoly, coeff_below, coeff_below,
    index_cancel]
  rcases Nat.lt_trichotomy i (n + k) with hlt | rfl | hgt
  · rw [if_pos hlt, if_pos (show i < n + (k + 1) by omega)]
    by_cases hk : k ≤ i
    · rw [if_pos hk, if_pos (by omega)]
      ring
    · rw [if_neg hk, if_neg (by omega), mul_zero, zero_add]
  · have hsub : n + k - k = n := by omega
    rw [if_pos (by omega), if_neg (lt_irrefl _), if_pos (by omega), hsub, hmonic, hQ, mul_one,
      add_zero]
  · rw [if_neg (show ¬ i < n + k by omega), if_neg (show ¬ i < n + (k + 1) by omega),
      if_pos (by omega), B.index_eq_zero (by omega), mul_zero, add_zero]

/-- From the top down, as long as the terms to come are not there yet. -/
theorem cancelDown_below {B : Poly K} {n : ℕ} (hdeg : B.deg = n) (hmonic : B.index n = 1) (k : ℕ)
    {d : Division K} (hQ : ∀ i < k, d.Q.index i = 0) :
    (cancelDown B k d).Q.toPoly * B.toPoly + (cancelDown B k d).R.below n =
      d.Q.toPoly * B.toPoly + d.R.below (n + k) := by
  induction k generalizing d with
  | zero => rfl
  | succ k ih =>
    have hcoef : d.R.index (B.deg + k) / B.index B.deg = d.R.index (n + k : ℕ) := by
      rw [hdeg, hmonic, div_one, Nat.cast_add]
    have hnew : (d.Q.newindex k (d.R.index (n + k : ℕ))).index k = d.R.index (n + k : ℕ) := by
      rw [index_newindex, if_pos rfl]
    have hterm : (d.Q.newindex k (d.R.index (n + k : ℕ))).toPoly =
        d.Q.toPoly + C (d.R.index (n + k : ℕ)) * X ^ k := by
      rw [← toPoly_newindex, hQ k (Nat.lt_succ_self k), add_zero]
    rw [cancelDown, hcoef, hdeg, Int.toNat_natCast, ih, hterm,
      ← cancel_step hdeg hmonic k d.R hnew, hnew]
    · ring
    · intro i hi
      rw [index_newindex, if_neg hi.ne]
      exact hQ i (by omega)

/-- Above the dividend nothing is written. -/
theorem cancelDown_above {B : Poly K} {n : ℕ} (hdeg : B.deg = n) (k : ℕ) (d : Division K) {i : ℕ}
    (hi : n + k ≤ i) : (cancelDown B k d).R.index i = d.R.index i := by
  induction k generalizing d with
  | zero => rfl
  | succ k ih =>
    rw [cancelDown, ih _ (by omega), index_cancel, hdeg, Int.toNat_natCast, if_neg (by omega)]

/-- The loops of `__div`, for a divisor that is normalized already. -/
theorem div_monic (A : Poly K) {B : Poly K} {n : ℕ} (hdeg : B.deg = n) (hmonic : B.index n = 1)
    {c : ℕ} (hc : c = (A.deg - B.deg + 1).toNat) {d : Division K}
    (hd : d = cancelDown B c
      { Q := empty, R := empty.assign (List.range (A.deg + 1).toNat) fun j => A.index j }) :
    d.Q.toPoly * B.toPoly + (d.R.assign (List.range' n c) fun _ => 0).toPoly = A.toPoly ∧
      (d.R.assign (List.range' n c) fun _ => 0).toPoly.degree < n := by
  have hcopy : ∀ i : ℕ,
      (empty.assign (List.range (A.deg + 1).toNat) fun j => A.index j).index i = A.index i := by
    intro i
    rw [index_assign]
    split
    next => rfl
    next hi =>
      rw [List.mem_range] at hi
      exact (A.index_eq_zero (by omega)).symm
  have hhigh : ∀ i : ℕ, n + c ≤ i → A.index i = 0 := fun i hi => A.index_eq_zero (by omega)
  -- what is cleared is what lies between the degrees
  have hclear : (d.R.assign (List.range' n c) fun _ => 0).toPoly = d.R.below n := by
    ext i
    rw [coeff_toPoly, index_assign, coeff_below]
    split
    next hmem =>
      rw [List.mem_range'_1] at hmem
      exact (if_neg (by omega)).symm
    next hmem =>
      rw [List.mem_range'_1] at hmem
      split
      next => rfl
      next hge =>
        rw [hd, cancelDown_above hdeg c _ (by omega), hcopy]
        exact hhigh i (by omega)
  rw [hclear]
  constructor
  · rw [hd, cancelDown_below hdeg hmonic c fun i _ => index_empty i, toPoly_empty, zero_mul,
      zero_add, below_eq_toPoly fun i hi => (hcopy i).trans (hhigh i hi)]
    exact toPoly_eq_iff.mpr hcopy
  · exact PowerSeries.degree_trunc_lt _ n

/-- The quotient and what is left over are those of the scaled polynomials. -/
theorem div_scaled (a : Poly K) {b : Poly K} (hb : b.toPoly ≠ 0) :
    (a.div b).Q.toPoly * (C (1 / b.index b.deg) * b.toPoly) + (a.div b).R.toPoly =
        C (1 / b.index b.deg) * a.toPoly ∧
      (a.div b).R.toPoly.degree < b.toPoly.degree := by
  have hlead : b.toPoly.leadingCoeff ≠ 0 := leadingCoeff_ne_zero.mpr hb
  have hfac : 1 / b.index b.deg ≠ 0 := by
    rw [index_deg hb]
    exact one_div_ne_zero hlead
  have hB : (b.scale (1 / b.index b.deg)).toPoly ≠ 0 := by
    rw [toPoly_scale]
    exact mul_ne_zero (C_ne_zero.mpr hfac) hb
  have hdeg : (b.scale (1 / b.index b.deg)).deg = (b.toPoly.natDegree : ℤ) := by
    rw [deg_eq hB, toPoly_scale, natDegree_C_mul hfac]
  have hmonic : (b.scale (1 / b.index b.deg)).index (b.toPoly.natDegree : ℤ) = 1 := by
    rw [← hdeg, index_deg hB, toPoly_scale, leadingCoeff_mul, leadingCoeff_C, index_deg hb,
      one_div_mul_cancel hlead]
  have hloops := div_monic (a.scale (1 / b.index b.deg)) hdeg hmonic rfl rfl
  rw [toPoly_scale, toPoly_scale] at hloops
  rw [degree_eq_natDegree hb, div, hdeg, Int.toNat_natCast]
  rw [hdeg] at hloops
  exact hloops

/-- What is left over is short by the divisor's leading coefficient. -/
theorem div_eq (a : Poly K) {b : Poly K} (hb : b.toPoly ≠ 0) :
    a.toPoly = (a.div b).Q.toPoly * b.toPoly + C (b.index b.deg) * (a.div b).R.toPoly := by
  have hlead : b.index b.deg ≠ 0 := by
    rw [index_deg hb]
    exact leadingCoeff_ne_zero.mpr hb
  have hinv : C (b.index b.deg) * C (1 / b.index b.deg) = 1 := by
    rw [← C_mul, mul_one_div_cancel hlead, C_1]
  have hscaled := (div_scaled a hb).1
  linear_combination C (b.index b.deg) * (-hscaled) +
    (a.toPoly - (a.div b).Q.toPoly * b.toPoly) * (-hinv)

/-- There is nothing left over exactly where the divisor is a factor. -/
theorem div_R_eq_zero_iff (a : Poly K) {b : Poly K} (hb : b.toPoly ≠ 0) :
    (a.div b).R.toPoly = 0 ↔ b.toPoly ∣ a.toPoly := by
  have hlead : b.index b.deg ≠ 0 := by
    rw [index_deg hb]
    exact leadingCoeff_ne_zero.mpr hb
  rw [div_eq a hb, dvd_add_right (dvd_mul_left _ _)]
  constructor
  · intro hR
    rw [hR, mul_zero]
    exact dvd_zero _
  · intro hdvd
    have hR : b.toPoly ∣ (a.div b).R.toPoly :=
      (dvd_C_mul hlead).mp hdvd
    exact eq_zero_of_dvd_of_degree_lt hR (div_scaled a hb).2

/-- What the code multiplies and adds is the polynomial one. -/
theorem divides_iff_toPoly (a : Poly K) {b : Poly K} (hb : b.toPoly ≠ 0) :
    Divides a b ↔ a.toPoly = (a.div b).Q.toPoly * b.toPoly + (a.div b).R.toPoly := by
  have hident : (∀ i : ℕ, a.index i = (((a.div b).Q.mul b).add (a.div b).R).index i) ↔
      a.toPoly = (a.div b).Q.toPoly * b.toPoly + (a.div b).R.toPoly := by
    rw [← toPoly_eq_iff, toPoly_add, toPoly_mul]
  have hdeg : (∀ i : ℕ, (a.div b).R.index i = 0) ∨ (a.div b).R.deg < b.deg := by
    by_cases hR : (a.div b).R.toPoly = 0
    · left
      intro i
      rw [← coeff_toPoly, hR, coeff_zero]
    · right
      have hlt := (div_scaled a hb).2
      rw [degree_eq_natDegree hR, degree_eq_natDegree hb, Nat.cast_lt] at hlt
      rw [deg_eq hR, deg_eq hb]
      exact Int.ofNat_lt.mpr hlt
  exact (and_iff_left hdeg).trans hident

/-- **Division** gives quotient and remainder for a divisor with leading coefficient one, and
for one that is a factor of the dividend. -/
theorem divides_iff (a : Poly K) {b : Poly K} (hb : ∃ i : ℕ, b.index i ≠ 0) :
    Divides a b ↔ b.index b.deg = 1 ∨ b.toPoly ∣ a.toPoly := by
  have hne : b.toPoly ≠ 0 := by
    obtain ⟨i, hi⟩ := hb
    intro hzero
    rw [← coeff_toPoly, hzero, coeff_zero] at hi
    exact hi rfl
  rw [divides_iff_toPoly a hne, ← div_R_eq_zero_iff a hne]
  have hshort := div_eq a hne
  constructor
  · intro hident
    -- both are the dividend, so the scale does nothing to what is left over
    have hscale : (C (b.index b.deg) - 1) * (a.div b).R.toPoly = 0 := by
      linear_combination hident - hshort
    rcases mul_eq_zero.mp hscale with hone | hR
    · left
      exact C_injective ((sub_eq_zero.mp hone).trans C_1.symm)
    · exact Or.inr hR
  · rintro (hone | hR)
    · rw [hone, C_1, one_mul] at hshort
      exact hshort
    · rw [hR, mul_zero] at hshort
      rw [hR]
      exact hshort

/-- `X² + X + 1` by `X + 2`. -/
theorem divides_monic :
    Divides (ofCoefs [1, 1, 1] (by decide +kernel) : Poly ℚ)
      (ofCoefs [2, 1] (by decide +kernel)) :=
  (divides_iff _ ⟨0, by decide +kernel⟩).mpr (Or.inl (by decide +kernel))

/-- `X² + 1` by `2X` leaves a half, and not one. -/
theorem divides_twice :
    ((ofCoefs [1, 0, 1] (by decide +kernel) : Poly ℚ).div
        (ofCoefs [0, 2] (by decide +kernel))).R.index 0 = 1 / 2 ∧
      ¬ Divides (ofCoefs [1, 0, 1] (by decide +kernel) : Poly ℚ)
        (ofCoefs [0, 2] (by decide +kernel)) := by
  refine ⟨by decide +kernel, fun h => ?_⟩
  have hconst := h.1 0
  revert hconst
  decide +kernel

end Poly

end Lua2SC.Num

import Mathlib

/-!
# Binary floating-point formats

A format has `t` fraction bits and `w` exponent bits; `single` and `double`
are IEEE 754's. A datum is a sign and a magnitude pattern, the exponent and
fraction fields read as one number. The patterns are ordered like the
magnitudes they stand for, the infinity comes after every finite one and the
NaNs after it.

Magnitudes are naturals in units of the smallest subnormal, `2 ^ (-scale)`, so
nothing here is rational: `val` decodes a pattern, and `round d n` is the
pattern nearest to `n / 2 ^ d` units, ties to even. Rounding a carry over works
on the pattern without a case of its own. `round_val` says that rounding
undoes decoding, `val_round` that a magnitude with few enough significant bits
is hit exactly. The conversions a program makes follow: between formats
(`convert`), from integers (`ofInt`) and to them (`trunc`).
-/

namespace Lua2SC.Ieee

/-- `t` fraction bits and `w` exponent bits. -/
structure Format where
  t : ℕ
  w : ℕ
deriving DecidableEq, Repr

def single : Format := ⟨23, 8⟩

def double : Format := ⟨52, 11⟩

namespace Format

variable (F : Format)

/-- The smallest subnormal is `2 ^ (-scale)`. -/
def scale : ℕ := 2 ^ (F.w - 1) - 2 + F.t

/-- The pattern of the infinity. -/
def infMag : ℕ := (2 ^ F.w - 1) * 2 ^ F.t

/-- Finite magnitudes are below `2 ^ top` units. -/
def top : ℕ := F.t + 2 ^ F.w - 2

/-- The magnitude of a finite pattern, in units. -/
def val (k : ℕ) : ℕ :=
  if k / 2 ^ F.t = 0 then k % 2 ^ F.t
  else (2 ^ F.t + k % 2 ^ F.t) * 2 ^ (k / 2 ^ F.t - 1)

end Format

/-- `n / d` to the nearest natural, ties to even. -/
def roundDiv (n d : ℕ) : ℕ :=
  if 2 * (n % d) < d then n / d
  else if d < 2 * (n % d) then n / d + 1
  else n / d + n / d % 2

theorem roundDiv_mul (q : ℕ) {d : ℕ} (hd : 0 < d) : roundDiv (q * d) d = q := by
  unfold roundDiv
  rw [Nat.mul_mod_left, Nat.mul_div_cancel q hd, if_pos (by omega)]

/-- The pattern nearest to `n / 2 ^ d` units. -/
def Format.round (F : Format) (d n : ℕ) : ℕ :=
  let s := max d (n.log2 - F.t)
  min F.infMag ((s - d) * 2 ^ F.t + roundDiv n (2 ^ s))

/-! ## Decoding and rounding -/

section

variable {F : Format}

/-- A number with at most `p` significant bits. -/
def Representable (p n : ℕ) : Prop := ∃ m j, m < 2 ^ p ∧ n = m * 2 ^ j

theorem Representable.of_lt {p n : ℕ} (h : n < 2 ^ p) : Representable p n :=
  ⟨n, 0, h, by simp⟩

theorem Representable.mul_pow {p n : ℕ} (h : Representable p n) (i : ℕ) :
    Representable p (n * 2 ^ i) := by
  obtain ⟨m, j, hm, rfl⟩ := h
  exact ⟨m, j + i, hm, by rw [pow_add, Nat.mul_assoc]⟩

theorem Representable.mono {p q n : ℕ} (h : Representable p n) (hpq : p ≤ q) :
    Representable q n := by
  obtain ⟨m, j, hm, hn⟩ := h
  exact ⟨m, j, hm.trans_le (Nat.pow_le_pow_right (by decide) hpq), hn⟩

/-- A decoded magnitude has `t + 1` significant bits at most. -/
theorem val_representable (k : ℕ) : Representable (F.t + 1) (F.val k) := by
  have hf : k % 2 ^ F.t < 2 ^ F.t := Nat.mod_lt _ (Nat.two_pow_pos _)
  unfold Format.val
  split
  · exact Representable.of_lt (hf.trans (Nat.pow_lt_pow_right (by decide) (by omega)))
  · exact ⟨_, _, by rw [pow_succ]; omega, rfl⟩

theorem val_lt {k : ℕ} (hk : k < F.infMag) : F.val k < 2 ^ F.top := by
  have hpos := Nat.two_pow_pos F.t
  have hf : k % 2 ^ F.t < 2 ^ F.t := Nat.mod_lt _ hpos
  -- the exponent field of a finite pattern is not all ones
  have he : k / 2 ^ F.t < 2 ^ F.w - 1 := (Nat.div_lt_iff_lt_mul hpos).mpr hk
  unfold Format.val
  generalize k / 2 ^ F.t = e at he ⊢
  split
  · exact hf.trans_le (Nat.pow_le_pow_right (by decide) (by unfold Format.top; omega))
  · have hm : 2 ^ F.t + k % 2 ^ F.t < 2 ^ (F.t + 1) := by rw [pow_succ]; omega
    calc (2 ^ F.t + k % 2 ^ F.t) * 2 ^ (e - 1)
        < 2 ^ (F.t + 1) * 2 ^ (e - 1) := Nat.mul_lt_mul_of_pos_right hm (Nat.two_pow_pos _)
      _ = 2 ^ (F.t + 1 + (e - 1)) := by rw [pow_add _ (F.t + 1)]
      _ ≤ 2 ^ F.top := Nat.pow_le_pow_right (by decide) (by unfold Format.top; omega)

/-- **Rounding undoes decoding**, also when the magnitude is given in finer units. -/
theorem round_val (d : ℕ) {k : ℕ} (hk : k < F.infMag) : F.round d (F.val k * 2 ^ d) = k := by
  have hpos := Nat.two_pow_pos F.t
  have hf : k % 2 ^ F.t < 2 ^ F.t := Nat.mod_lt _ hpos
  have hdiv : k / 2 ^ F.t * 2 ^ F.t + k % 2 ^ F.t = k := Nat.div_add_mod' k (2 ^ F.t)
  unfold Format.round Format.val
  by_cases he : k / 2 ^ F.t = 0
  · -- subnormal: the exponent stays at its least
    rw [if_pos he]
    have hs : max d ((k % 2 ^ F.t * 2 ^ d).log2 - F.t) = d := by
      by_cases h0 : k % 2 ^ F.t * 2 ^ d = 0
      · rw [h0, Nat.log2_zero]; omega
      · have hlt : k % 2 ^ F.t * 2 ^ d < 2 ^ (F.t + d) := by
          rw [pow_add]
          exact Nat.mul_lt_mul_of_pos_right hf (Nat.two_pow_pos d)
        have hlog := (Nat.log2_lt h0).mpr hlt
        omega
    simp only [hs, Nat.sub_self, Nat.zero_mul, Nat.zero_add, roundDiv_mul _ (Nat.two_pow_pos d)]
    rw [he] at hdiv
    omega
  · rw [if_neg he]
    generalize hex : k / 2 ^ F.t - 1 = x
    have hn : (2 ^ F.t + k % 2 ^ F.t) * 2 ^ x * 2 ^ d =
        (2 ^ F.t + k % 2 ^ F.t) * 2 ^ (x + d) := by rw [pow_add, Nat.mul_assoc]
    have hlog : ((2 ^ F.t + k % 2 ^ F.t) * 2 ^ (x + d)).log2 = F.t + (x + d) := by
      rw [Nat.log2_eq_iff (by positivity)]
      constructor
      · rw [pow_add _ F.t]
        exact Nat.mul_le_mul_right _ (by omega)
      · rw [show F.t + (x + d) + 1 = F.t + 1 + (x + d) by omega, pow_add _ (F.t + 1)]
        exact Nat.mul_lt_mul_of_pos_right (by rw [pow_succ]; omega) (Nat.two_pow_pos _)
    have hs : max d (F.t + (x + d) - F.t) = x + d := by omega
    simp only [hn, hlog, hs, roundDiv_mul _ (Nat.two_pow_pos _), Nat.add_sub_cancel]
    have hk' : x * 2 ^ F.t + (2 ^ F.t + k % 2 ^ F.t) = k := by
      have hone : (x + 1) * 2 ^ F.t = k / 2 ^ F.t * 2 ^ F.t := by
        rw [← hex, Nat.sub_add_cancel (Nat.pos_of_ne_zero he)]
      rw [Nat.add_mul, Nat.one_mul] at hone
      omega
    rw [hk']
    omega

/-- **A magnitude with few enough significant bits is hit exactly.** -/
theorem val_round {n : ℕ} (hw : 1 ≤ F.w) (hn : Representable (F.t + 1) n) (htop : n < 2 ^ F.top) :
    F.round 0 n < F.infMag ∧ F.val (F.round 0 n) = n := by
  have hpos := Nat.two_pow_pos F.t
  have hw2 : 2 ≤ 2 ^ F.w := by
    calc 2 = 2 ^ 1 := rfl
      _ ≤ 2 ^ F.w := Nat.pow_le_pow_right (by decide) hw
  unfold Format.round
  simp only [Nat.zero_max, Nat.sub_zero]
  by_cases hsmall : n < 2 ^ F.t
  · -- below the first normal number the pattern is the magnitude
    have hs : n.log2 - F.t = 0 := by
      by_cases h0 : n = 0
      · rw [h0, Nat.log2_zero]; omega
      · have := (Nat.log2_lt h0).mpr hsmall
        omega
    have hinf : 2 ^ F.t ≤ F.infMag := by
      unfold Format.infMag
      exact Nat.le_mul_of_pos_left _ (by omega)
    have hround : roundDiv n (2 ^ 0) = n := by
      have := roundDiv_mul n (d := 2 ^ 0) (by decide)
      simpa using this
    rw [hs, Nat.zero_mul, Nat.zero_add, hround, Nat.min_eq_right (by omega)]
    refine ⟨by omega, ?_⟩
    unfold Format.val
    rw [if_pos (Nat.div_eq_of_lt hsmall), Nat.mod_eq_of_lt hsmall]
  · obtain ⟨m, j, hm, hmj⟩ := hn
    have hn0 : n ≠ 0 := by omega
    have hlog : F.t ≤ n.log2 := (Nat.le_log2 hn0).mpr (by omega)
    generalize hs : n.log2 - F.t = s
    -- the bits below `2 ^ s` are all zero
    have hsj : s ≤ j := by
      have hlt : n < 2 ^ (F.t + 1 + j) := by
        rw [hmj, pow_add _ (F.t + 1)]
        exact Nat.mul_lt_mul_of_pos_right hm (Nat.two_pow_pos j)
      have := (Nat.log2_lt hn0).mpr hlt
      omega
    obtain ⟨q, hq⟩ : ∃ q, n = q * 2 ^ s := by
      refine ⟨m * 2 ^ (j - s), ?_⟩
      rw [hmj, Nat.mul_assoc, ← pow_add, Nat.sub_add_cancel hsj]
    obtain ⟨hlo, hhi⟩ := (Nat.log2_eq_iff (k := F.t + s) hn0).mp (by omega)
    have hqlo : 2 ^ F.t ≤ q := by
      rw [hq, pow_add] at hlo
      exact Nat.le_of_mul_le_mul_right hlo (Nat.two_pow_pos s)
    have hqhi : q < 2 * 2 ^ F.t := by
      rw [hq, show F.t + s + 1 = F.t + 1 + s by omega, pow_add _ (F.t + 1)] at hhi
      have := Nat.lt_of_mul_lt_mul_right hhi
      rwa [pow_succ, Nat.mul_comm] at this
    have hstop : s + 1 < 2 ^ F.w - 1 := by
      have := (Nat.log2_lt hn0).mpr htop
      unfold Format.top at this
      omega
    have hround : roundDiv n (2 ^ s) = q := by rw [hq, roundDiv_mul q (Nat.two_pow_pos s)]
    have hpat : s * 2 ^ F.t + q = (s + 1) * 2 ^ F.t + (q - 2 ^ F.t) := by
      rw [Nat.add_mul, Nat.one_mul]
      omega
    have hlt : s * 2 ^ F.t + q < F.infMag := by
      have hmul : (s + 2) * 2 ^ F.t ≤ (2 ^ F.w - 1) * 2 ^ F.t := Nat.mul_le_mul_right _ (by omega)
      rw [Nat.add_mul] at hmul
      unfold Format.infMag
      omega
    rw [hround, Nat.min_eq_right hlt.le]
    refine ⟨hlt, ?_⟩
    have hdiv : (s * 2 ^ F.t + q) / 2 ^ F.t = s + 1 := by
      rw [hpat, Nat.add_comm, Nat.add_mul_div_right _ _ hpos, Nat.div_eq_of_lt (by omega),
        Nat.zero_add]
    have hmod : (s * 2 ^ F.t + q) % 2 ^ F.t = q - 2 ^ F.t := by
      rw [hpat, Nat.add_comm, Nat.add_mul_mod_self_right, Nat.mod_eq_of_lt (by omega)]
    unfold Format.val
    rw [hdiv, hmod, if_neg (by omega), Nat.add_sub_cancel' hqlo, Nat.add_sub_cancel, hq]

end

/-! ## Data -/

/-- A sign and a magnitude pattern. -/
structure Datum (F : Format) where
  neg : Bool
  mag : Fin (2 ^ (F.w + F.t))
deriving DecidableEq, Repr

/-- The datum of a magnitude, signed as asked. -/
def Datum.ofMag (F : Format) (neg : Bool) (k : ℕ) : Datum F :=
  ⟨neg, ⟨k % 2 ^ (F.w + F.t), Nat.mod_lt _ (Nat.two_pow_pos _)⟩⟩

/-- An integer with the sign asked for. -/
def signed (neg : Bool) (n : ℕ) : ℤ := if neg then -(n : ℤ) else n

theorem signed_natAbs (n : ℤ) : signed (decide (n < 0)) n.natAbs = n := by
  unfold signed
  by_cases h : n < 0
  · simp only [h, decide_true, if_true]
    omega
  · simp only [h, decide_false, Bool.false_eq_true, if_false]
    omega

@[simp] theorem natAbs_signed (neg : Bool) (n : ℕ) : (signed neg n).natAbs = n := by
  unfold signed
  split <;> simp

theorem signed_mul (neg : Bool) (n m : ℕ) : signed neg (n * m) = signed neg n * m := by
  unfold signed
  split <;> push_cast <;> ring

namespace Datum

variable {F G : Format}

def isFinite (x : Datum F) : Bool := decide (x.mag.val < F.infMag)

def isInf (x : Datum F) : Bool := decide (x.mag.val = F.infMag)

def isNaN (x : Datum F) : Bool := decide (F.infMag < x.mag.val)

/-- The value in units; an infinity and a NaN have none. -/
def units (x : Datum F) : Option ℤ :=
  if x.isFinite then some (signed x.neg (F.val x.mag)) else none

/-- The integer part, towards zero. -/
def trunc (x : Datum F) : Option ℤ :=
  if x.isFinite then some (signed x.neg (F.val x.mag / 2 ^ F.scale)) else none

/-- `x == floor(x)`: so it is for the infinities, and not for NaN. -/
def isWhole (x : Datum F) : Bool :=
  x.isInf || (x.isFinite && decide (F.val x.mag % 2 ^ F.scale = 0))

def infinity (F : Format) (neg : Bool) : Datum F := ofMag F neg F.infMag

/-- The quiet NaN. -/
def nan (F : Format) (neg : Bool) : Datum F := ofMag F neg (F.infMag + 2 ^ (F.t - 1))

/-- An integer, rounded to the format. -/
def ofInt (F : Format) (n : ℤ) : Datum F :=
  ofMag F (decide (n < 0)) (F.round 0 (n.natAbs * 2 ^ F.scale))

/-- The datum of another format with the nearest value. -/
def convert (G : Format) (x : Datum F) : Datum G :=
  if x.isNaN then nan G x.neg
  else if x.isInf then infinity G x.neg
  else ofMag G x.neg (G.round (F.scale - G.scale) (F.val x.mag * 2 ^ (G.scale - F.scale)))

/-- A number times a power of two, rounded to the format. -/
def mulPow (x : Datum F) (k : ℕ) : Datum F :=
  if x.isFinite then ofMag F x.neg (F.round 0 (F.val x.mag * 2 ^ k)) else x

/-- The place of a number among the numbers; the two zeros share theirs. -/
def rank (x : Datum F) : ℤ := signed x.neg x.mag

/-- `x < y`, which is false of a NaN. -/
def lt (x y : Datum F) : Bool := !x.isNaN && !y.isNaN && decide (x.rank < y.rank)

/-- `x >= 0`, likewise. -/
def nonneg (x : Datum F) : Bool := !x.isNaN && decide (0 ≤ x.rank)

/-- The bits as a number, the sign on top. -/
def toBits (x : Datum F) : ℕ := x.neg.toNat * 2 ^ (F.w + F.t) + x.mag

def ofBits (F : Format) (n : ℕ) : Datum F := ofMag F (decide (2 ^ (F.w + F.t) ≤ n)) n

theorem toBits_lt (x : Datum F) : x.toBits < 2 * 2 ^ (F.w + F.t) := by
  have h := x.mag.isLt
  unfold toBits
  cases x.neg <;> simp <;> omega

@[simp] theorem ofBits_toBits (x : Datum F) : ofBits F x.toBits = x := by
  obtain ⟨neg, mag, hmag⟩ := x
  unfold ofBits ofMag toBits
  cases neg with
  | false => simp [Nat.mod_eq_of_lt hmag, hmag]
  | true => simp [Nat.mod_eq_of_lt hmag]

theorem toBits_ofBits {n : ℕ} (h : n < 2 * 2 ^ (F.w + F.t)) : (ofBits F n).toBits = n := by
  unfold ofBits ofMag toBits
  by_cases hn : 2 ^ (F.w + F.t) ≤ n
  · have hmod : n % 2 ^ (F.w + F.t) = n - 2 ^ (F.w + F.t) := by
      rw [Nat.mod_eq_sub_mod hn, Nat.mod_eq_of_lt (by omega)]
    simp only [hn, decide_true, Bool.toNat_true, Nat.one_mul, hmod]
    omega
  · simp only [hn, decide_false, Bool.toNat_false, Nat.zero_mul, Nat.zero_add]
    exact Nat.mod_eq_of_lt (by omega)

/-- Three ways for a magnitude. -/
theorem cases_mag (x : Datum F) : x.isFinite = true ∨ x.isInf = true ∨ x.isNaN = true := by
  simp only [isFinite, isInf, isNaN, decide_eq_true_eq]
  omega

theorem infMag_lt (F : Format) : F.infMag < 2 ^ (F.w + F.t) := by
  have h2 := Nat.two_pow_pos F.w
  unfold Format.infMag
  rw [pow_add]
  exact Nat.mul_lt_mul_of_pos_right (by omega) (Nat.two_pow_pos F.t)

theorem ofMag_mag {k : ℕ} {neg : Bool} (hk : k < 2 ^ (F.w + F.t)) :
    (ofMag F neg k).mag.val = k := Nat.mod_eq_of_lt hk

theorem round_le (d n : ℕ) : F.round d n ≤ F.infMag := Nat.min_le_left ..

/-- A product with a power of two is a number when the factor is one. -/
theorem isNaN_mulPow {x : Datum F} (h : x.isNaN = false) (k : ℕ) : (x.mulPow k).isNaN = false := by
  unfold mulPow
  split
  · have hle := round_le (F := F) 0 (F.val x.mag * 2 ^ k)
    unfold isNaN
    rw [ofMag_mag (hle.trans_lt (infMag_lt F))]
    exact decide_eq_false (by omega)
  · exact h

/-- The value of an integer that needs few enough bits is exact. -/
theorem units_ofInt (hw : 1 ≤ F.w) {n : ℤ} (hn : Representable (F.t + 1) n.natAbs)
    (htop : n.natAbs * 2 ^ F.scale < 2 ^ F.top) :
    (ofInt F n).units = some (n * 2 ^ F.scale) := by
  obtain ⟨hlt, hval⟩ := val_round hw (hn.mul_pow F.scale) htop
  have hmag : (ofInt F n).mag.val = F.round 0 (n.natAbs * 2 ^ F.scale) :=
    ofMag_mag (hlt.trans (infMag_lt F))
  have hfin : (ofInt F n).isFinite = true := by
    simp only [isFinite, decide_eq_true_eq, hmag]
    exact hlt
  unfold units
  rw [if_pos hfin, hmag, hval, signed_mul]
  have hneg : (ofInt F n).neg = decide (n < 0) := rfl
  rw [hneg, signed_natAbs]
  push_cast
  rfl

/-- What the units say about the integer part. -/
theorem trunc_of_units {x : Datum F} {n : ℤ} (h : x.units = some (n * 2 ^ F.scale)) :
    x.trunc = some n := by
  unfold units at h
  unfold trunc
  split at h
  · have hs := Option.some.inj h
    rename_i hfin
    rw [if_pos hfin]
    have hpos := Nat.two_pow_pos F.scale
    have habs : F.val x.mag = n.natAbs * 2 ^ F.scale := by
      have := congrArg Int.natAbs hs
      rwa [natAbs_signed, Int.natAbs_mul, Int.natAbs_pow] at this
    have hdiv : F.val x.mag / 2 ^ F.scale = n.natAbs := by
      rw [habs, Nat.mul_div_cancel _ hpos]
    have hprod : signed x.neg n.natAbs * (2 ^ F.scale : ℕ) = n * (2 ^ F.scale : ℕ) := by
      rw [← signed_mul, ← habs, hs]
      push_cast
      rfl
    rw [hdiv, mul_right_cancel₀ (by exact_mod_cast hpos.ne') hprod]
  · exact absurd h (by simp)

/-- An integer part has few significant bits. -/
theorem representable_of_trunc {x : Datum F} {n : ℤ} (h : x.trunc = some n) :
    Representable (F.t + 1) n.natAbs := by
  unfold trunc at h
  split at h
  · rw [← Option.some.inj h, natAbs_signed]
    obtain ⟨m, j, hm, hval⟩ := val_representable (F := F) x.mag
    rw [hval]
    by_cases hj : F.scale ≤ j
    · -- a whole number: the scale comes off the exponent
      refine ⟨m, j - F.scale, hm, ?_⟩
      rw [show m * 2 ^ j = m * 2 ^ (j - F.scale) * 2 ^ F.scale by
        rw [Nat.mul_assoc, ← pow_add, Nat.sub_add_cancel hj]]
      exact Nat.mul_div_cancel _ (Nat.two_pow_pos _)
    · refine Representable.of_lt ?_
      have hle : m * 2 ^ j / 2 ^ F.scale ≤ m := by
        refine Nat.div_le_of_le_mul ?_
        rw [Nat.mul_comm]
        exact Nat.mul_le_mul_right m (Nat.pow_le_pow_right (by decide) (by omega))
      omega
  · exact absurd h (by simp)

/-- A whole number is its integer part. -/
theorem units_of_whole {x : Datum F} {n : ℤ} (hx : x.isWhole = true) (h : x.trunc = some n) :
    x.units = some (n * 2 ^ F.scale) := by
  have hfin : x.isFinite = true := by
    unfold trunc at h
    split at h
    · assumption
    · exact absurd h (by simp)
  have hinf : x.isInf = false := by
    simp only [isFinite, isInf, decide_eq_true_eq, decide_eq_false_iff_not] at hfin ⊢
    omega
  have hmod : F.val x.mag % 2 ^ F.scale = 0 := by
    simpa [isWhole, hfin, hinf] using hx
  unfold trunc at h
  unfold units
  rw [if_pos hfin] at h ⊢
  rw [← Option.some.inj h]
  have hval : F.val x.mag = F.val x.mag / 2 ^ F.scale * 2 ^ F.scale := by
    have := Nat.div_add_mod' (F.val x.mag) (2 ^ F.scale)
    omega
  conv_lhs => rw [hval, signed_mul]
  push_cast
  rfl

/-! ### Between formats -/

/-- Every value of `F` is one of `G`. -/
structure Fits (F G : Format) : Prop where
  width : 1 ≤ G.w
  fraction : F.t ≤ G.t
  scale : F.scale ≤ G.scale
  top : F.top + (G.scale - F.scale) ≤ G.top

/-- Widening is exact. -/
theorem convert_widen (h : Fits F G) {x : Datum F} (hx : x.isFinite = true) :
    (x.convert G).mag.val < G.infMag ∧
      G.val (x.convert G).mag = F.val x.mag * 2 ^ (G.scale - F.scale) := by
  have hlt : x.mag.val < F.infMag := by simpa [isFinite] using hx
  have hnan : x.isNaN = false := by
    simp only [isNaN, decide_eq_false_iff_not]
    omega
  have hinf : x.isInf = false := by
    simp only [isInf, decide_eq_false_iff_not]
    omega
  have hrep : Representable (G.t + 1) (F.val x.mag * 2 ^ (G.scale - F.scale)) :=
    ((val_representable x.mag).mul_pow _).mono (by have := h.fraction; omega)
  have hval : F.val x.mag * 2 ^ (G.scale - F.scale) < 2 ^ G.top := by
    calc F.val x.mag * 2 ^ (G.scale - F.scale)
        < 2 ^ F.top * 2 ^ (G.scale - F.scale) :=
          Nat.mul_lt_mul_of_pos_right (val_lt hlt) (Nat.two_pow_pos _)
      _ = 2 ^ (F.top + (G.scale - F.scale)) := by rw [pow_add]
      _ ≤ 2 ^ G.top := Nat.pow_le_pow_right (by decide) h.top
  obtain ⟨hlt', hval'⟩ := val_round h.width hrep hval
  have hd : F.scale - G.scale = 0 := Nat.sub_eq_zero_of_le h.scale
  have hmag : (x.convert G).mag.val = G.round 0 (F.val x.mag * 2 ^ (G.scale - F.scale)) := by
    unfold convert
    rw [hnan, hinf, hd]
    exact ofMag_mag (hlt'.trans (infMag_lt G))
  rw [hmag]
  exact ⟨hlt', hval'⟩

@[simp] theorem convert_neg (x : Datum F) : (x.convert G).neg = x.neg := by
  unfold convert
  split
  · rfl
  · split <;> rfl

/-- The infinities stay what they are. -/
theorem convert_inf {x : Datum F} (hx : x.isInf = true) :
    x.convert G = infinity G x.neg ∧ (x.convert G).isInf = true := by
  have hnan : x.isNaN = false := by
    simp only [isInf, isNaN, decide_eq_true_eq, decide_eq_false_iff_not] at hx ⊢
    omega
  have heq : x.convert G = infinity G x.neg := by
    unfold convert
    rw [hnan, hx]
    rfl
  refine ⟨heq, ?_⟩
  rw [heq]
  simp only [isInf, decide_eq_true_eq]
  exact ofMag_mag (infMag_lt G)

theorem ext_mag {x y : Datum F} (hneg : x.neg = y.neg) (hmag : x.mag.val = y.mag.val) : x = y := by
  obtain ⟨nx, mx⟩ := x
  obtain ⟨ny, my⟩ := y
  have hm : mx = my := Fin.ext hmag
  rw [show nx = ny from hneg, hm]

/-- **Widening and narrowing back** gives every datum but a NaN again. -/
theorem convert_convert (h : Fits F G) {x : Datum F} (hx : x.isNaN = false) :
    (x.convert G).convert F = x := by
  rcases x.cases_mag with hfin | hinf | hnan
  · obtain ⟨hlt, hval⟩ := convert_widen h hfin
    have hxlt : x.mag.val < F.infMag := by simpa [isFinite] using hfin
    have hd : F.scale - G.scale = 0 := Nat.sub_eq_zero_of_le h.scale
    have hnan' : (x.convert G).isNaN = false := by
      simp only [isNaN, decide_eq_false_iff_not]
      omega
    have hinf' : (x.convert G).isInf = false := by
      simp only [isInf, decide_eq_false_iff_not]
      omega
    refine ext_mag (by rw [convert_neg, convert_neg]) ?_
    rw [convert, hnan', hinf', if_neg (by simp), if_neg (by simp), hval, hd, Nat.pow_zero,
      Nat.mul_one, round_val _ hxlt]
    exact ofMag_mag x.mag.isLt
  · obtain ⟨heq, hinf'⟩ := convert_inf (G := G) hinf
    obtain ⟨heq', -⟩ := convert_inf (G := F) hinf'
    rw [heq', convert_neg]
    refine ext_mag rfl ?_
    rw [infinity, ofMag_mag (infMag_lt F)]
    have hmag : x.mag.val = F.infMag := by simpa [isInf] using hinf
    exact hmag.symm
  · rw [hx] at hnan
    exact absurd hnan (by simp)

end Datum

theorem fits_single_double : Datum.Fits single double := by
  constructor <;> decide

end Lua2SC.Ieee

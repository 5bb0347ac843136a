import Lua2SC.Codec.Number2String

/-!
# What `float2str` keeps of a number

`float2str` takes a number apart with `math.frexp` and doubles the mantissa until it
is at least 1, less half a unit of the 23 bits that are written. So a mantissa within
that half unit of the next power of two is not doubled: the number is written as that
power of two. `roundsTo j` is where this begins, and it is the only thing that decides
the exponent byte: `e` is written for the numbers from `roundsTo (e - 127)` up to
`roundsTo (e - 126)` (`float2str_spec`).

The largest number below a power of two of every binade lies just there, so the codec
changes exactly the numbers whose mantissa bits are all ones (`float2str_exact_iff`).

There is no check on the exponent. `pack_ok` reads the exponent and the sign as one
number `e + 256 * signbit`: outside of 0 .. 511 `string.char` fails, and inside it is
the sign and exponent that are read back, whichever of the two has run into the
other. `harmless_iff` lists the numbers outside of the normal range for which this
goes well.
-/

namespace Lua2SC.Codec

open Lua2SC.Lua

/-! ## Reading back -/

/-- The end of `float2str`: exponent, sign and mantissa as four bytes. -/
def pack (signbit e M : ℤ) : LuaM LString := do
  let c4 ← char (e / 2 + 128 * signbit)
  let c3 ← char (M / 256 / 256 % 256 + 128 * (e % 2))
  let c2 ← char (M / 256 % 256)
  let c1 ← char (M % 256)
  return [c4, c3, c2, c1]

/-- What the exponent and the sign stand for together with a mantissa. -/
def unpacked (u : ℤ) (M : ℕ) : ℚ :=
  if u % 256 = 0 then 0
  else (if 256 ≤ u then -1 else 1) * ((1 + M / 2 ^ 23) * 2 ^ (u % 256 - 127))

theorem char_ok {n : ℤ} (h₀ : 0 ≤ n) (h : n ≤ 255) : char n = .ok (UInt8.ofNat n.toNat) :=
  if_pos ⟨h₀, h⟩

theorem char_error {n : ℤ} (h : n < 0 ∨ 255 < n) : ∃ err, char n = .error err :=
  ⟨_, if_neg (by omega)⟩

/-- Out of the two bytes for it the exponent and sign cannot be written. -/
theorem pack_error {signbit e M : ℤ} (h : e + 256 * signbit < 0 ∨ 512 ≤ e + 256 * signbit) :
    ∃ err, pack signbit e M = .error err := by
  obtain ⟨err, herr⟩ := char_error (n := e / 2 + 128 * signbit) (by omega)
  refine ⟨err, ?_⟩
  unfold pack
  rw [herr]
  rfl

/-- **Otherwise they are read back** as one number. -/
theorem pack_ok {signbit e : ℤ} {M : ℕ} (hM : M < 2 ^ 23) (h₀ : 0 ≤ e + 256 * signbit)
    (h : e + 256 * signbit < 512) : ∃ s, pack signbit e M = .ok s ∧
      str2float32 s = .ok (.finite (unpacked (e + 256 * signbit) M)) := by
  have hhalf : e / 2 + 128 * signbit = (e + 256 * signbit) / 2 := by omega
  have hodd : e % 2 = (e + 256 * signbit) % 2 := by omega
  unfold pack
  rw [hhalf, hodd]
  obtain ⟨u, hu⟩ := Int.eq_ofNat_of_zero_le h₀
  rw [hu] at h ⊢
  have h4 : char ((u : ℤ) / 2) = .ok (UInt8.ofNat (u / 2)) := by
    rw [char_ok (by omega) (by omega)]
    congr 2
  have h3 : char ((M : ℤ) / 256 / 256 % 256 + 128 * ((u : ℤ) % 2)) =
      .ok (UInt8.ofNat (M / 256 / 256 + 128 * (u % 2))) := by
    rw [char_ok (by omega) (by omega)]
    congr 2
    omega
  have h2 : char ((M : ℤ) / 256 % 256) = .ok (UInt8.ofNat (M / 256 % 256)) := by
    rw [char_ok (by omega) (by omega)]
    congr 2
  have h1 : char ((M : ℤ) % 256) = .ok (UInt8.ofNat (M % 256)) := by
    rw [char_ok (by omega) (by omega)]
    congr 2
  rw [h4, h3, h2, h1]
  refine ⟨_, rfl, ?_⟩
  have hbyte : ∀ n < 256, (UInt8.ofNat n).toNat = n := fun n hn => by
    rw [UInt8.toNat_ofNat', Nat.mod_eq_of_lt hn]
  have hsign : (127 < u / 2) = ((256 : ℤ) ≤ u) := by
    rw [eq_iff_iff]
    omega
  have hexp : (((u / 2 : ℕ) : ℤ) % 128 * 2 + ((M / 256 / 256 + 128 * (u % 2) : ℕ) : ℤ) / 128) =
      (u : ℤ) % 256 := by omega
  have hman : ((M / 256 / 256 + 128 * (u % 2)) % 128 * 256 + M / 256 % 256) * 256 + M % 256 = M := by
    omega
  unfold str2float32
  simp only [hbyte _ (show u / 2 < 256 by omega), hbyte _ (show M / 256 % 256 < 256 by omega),
    hbyte _ (show M % 256 < 256 by omega),
    hbyte _ (show M / 256 / 256 + 128 * (u % 2) < 256 by omega), hsign, hexp, hman, unpacked]
  split
  · rfl
  · congr 2
    unfold ldexp
    rw [zpow_neg]
    ring

/-! ## Which exponent is written -/

/-- Where the numbers begin that are written as `2 ^ j` or more. -/
def roundsTo (j : ℤ) : ℚ := (1 - 1 / 2 ^ 24) * 2 ^ j

theorem roundsTo_pos (j : ℤ) : 0 < roundsTo j := by
  unfold roundsTo
  positivity

theorem roundsTo_strictMono : StrictMono roundsTo := by
  intro i j hij
  have hpow : (2 : ℚ) ^ i < 2 ^ j := zpow_lt_zpow_right₀ (by norm_num) hij
  unfold roundsTo
  linarith

theorem roundsTo_lt (j : ℤ) : roundsTo j < 2 ^ j := by
  have hpos : (0 : ℚ) < 2 ^ j := by positivity
  unfold roundsTo
  linarith

theorem lt_roundsTo_succ (j : ℤ) : (2 : ℚ) ^ j < roundsTo (j + 1) := by
  have hpos : (0 : ℚ) < 2 ^ j := by positivity
  have hsucc : (2 : ℚ) ^ (j + 1) = 2 ^ j * 2 := zpow_add_one₀ (by norm_num) j
  unfold roundsTo
  rw [hsucc]
  linarith

/-- Where the doubling of the mantissa ends. -/
theorem mantissaLoop_frexp {y : ℚ} (hy : 0 < y) : ∃ exp2 : ℤ,
    mantissaLoop 2 (frexp y) = (y / 2 ^ exp2, exp2) ∧ roundsTo exp2 ≤ y ∧
      y < roundsTo (exp2 + 1) := by
  have hlow : (2 : ℚ) ^ Int.log 2 y ≤ y := Int.zpow_log_le_self (by norm_num) hy
  have hhigh : y < (2 : ℚ) ^ (Int.log 2 y + 1) := Int.lt_zpow_succ_log_self (by norm_num) y
  have hfrexp : frexp y = (y / 2 ^ (Int.log 2 y + 1), Int.log 2 y + 1) := by
    unfold frexp
    rw [if_neg hy.ne', abs_of_pos hy]
  rw [hfrexp]
  generalize Int.log 2 y = L at hlow hhigh
  have hpow : (2 : ℚ) ^ (L + 1) = 2 ^ L * 2 := zpow_add_one₀ (by norm_num) L
  have hpos : (0 : ℚ) < 2 ^ L := by positivity
  have hless : (1 / 2 + (y / 2 ^ (L + 1) - 1) * 2 ^ 23 < 0) ↔ y < roundsTo (L + 1) := by
    unfold roundsTo
    rw [← div_lt_iff₀ (by positivity)]
    constructor <;> intro h <;> linarith
  by_cases hdouble : y < roundsTo (L + 1)
  · have hstop : ¬ (1 / 2 + (y / 2 ^ (L + 1) * 2 - 1) * 2 ^ 23 < 0) := by
      have hone : 1 ≤ y / 2 ^ (L + 1) * 2 := by
        rw [hpow, div_mul_eq_mul_div, le_div_iff₀ (by positivity)]
        linarith
      linarith
    refine ⟨L, ?_, (roundsTo_lt L).le.trans hlow, hdouble⟩
    rw [mantissaLoop, if_pos (hless.mpr hdouble), mantissaLoop, if_neg hstop, add_sub_cancel_right]
    congr 1
    rw [hpow]
    field_simp
  · refine ⟨L + 1, ?_, not_lt.mp hdouble, hhigh.trans (lt_roundsTo_succ _)⟩
    rw [mantissaLoop, if_neg fun h => hdouble (hless.mp h)]

/-- The mantissa that is written with an exponent. -/
def mantissaOf (x : ℚ) (e : ℤ) : ℤ := ⌊(1 / 2 : ℚ) + (|x| / 2 ^ (e - 127) - 1) * 2 ^ 23⌋

/-- 1 for the negative numbers. -/
def signbitOf (x : ℚ) : ℤ := if x < 0 then 1 else 0

/-- **What `float2str` writes**: the exponent is that of the binade in which the number
lies when it has been rounded. -/
theorem float2str_spec {x : ℚ} (hx : x ≠ 0) : ∃ (e : ℤ) (M : ℕ), M < 2 ^ 23 ∧
    (M : ℤ) = mantissaOf x e ∧ roundsTo (e - 127) ≤ |x| ∧ |x| < roundsTo (e - 126) ∧
    float2str (.finite x) = pack (signbitOf x) e M := by
  obtain ⟨exp2, hloop, hlow, hhigh⟩ := mantissaLoop_frexp (abs_pos.mpr hx)
  have hexp : exp2 + 127 - 127 = exp2 := by omega
  have hmantissa : mantissaOf x (exp2 + 127) = ⌊(1 / 2 : ℚ) + (|x| / 2 ^ exp2 - 1) * 2 ^ 23⌋ := by
    rw [mantissaOf, hexp]
  have hpos : (0 : ℚ) < 2 ^ exp2 := by positivity
  -- the mantissa has 23 bits
  have hnn : 0 ≤ mantissaOf x (exp2 + 127) := by
    rw [hmantissa, Int.floor_nonneg]
    have hdiv : 1 - 1 / 2 ^ 24 ≤ |x| / 2 ^ exp2 := (le_div_iff₀ hpos).mpr hlow
    linarith
  have hlt : mantissaOf x (exp2 + 127) < 2 ^ 23 := by
    rw [hmantissa, Int.floor_lt]
    have hdiv : |x| / 2 ^ exp2 < (1 - 1 / 2 ^ 24) * 2 := by
      rw [div_lt_iff₀ hpos]
      unfold roundsTo at hhigh
      rw [zpow_add_one₀ (by norm_num)] at hhigh
      linarith
    push_cast
    linarith
  obtain ⟨M, hM⟩ := Int.eq_ofNat_of_zero_le hnn
  refine ⟨exp2 + 127, M, by exact_mod_cast hM ▸ hlt, hM.symm, by rwa [hexp], ?_, ?_⟩
  · rwa [show exp2 + 127 - 126 = exp2 + 1 by omega]
  · have hassert : (M : ℤ) / 256 / 256 % 256 < 128 := by
      have hM' : (M : ℤ) < 2 ^ 23 := hM ▸ hlt
      omega
    unfold float2str
    dsimp only
    rw [if_neg hx, hloop]
    dsimp only
    rw [← hmantissa, hM, luaAssert_true hassert, ok_bind]
    rfl

section Written

variable {x : ℚ} {e : ℤ} {M : ℕ} (hlow : roundsTo (e - 127) ≤ |x|) (hhigh : |x| < roundsTo (e - 126))
include hlow hhigh

theorem roundsTo_le_iff (j : ℤ) : roundsTo j ≤ |x| ↔ j ≤ e - 127 := by
  constructor
  · intro h
    by_contra hlt
    exact absurd (h.trans_lt hhigh) (not_lt.mpr (roundsTo_strictMono.monotone (by omega)))
  · intro h
    exact (roundsTo_strictMono.monotone h).trans hlow

omit hlow hhigh in
/-- What a number becomes, from its exponent and mantissa. -/
theorem float32Of_iff (hM : M < 2 ^ 23) (hpack : float2str (.finite x) = pack (signbitOf x) e M)
    (h₀ : 0 ≤ e + 256 * signbitOf x) (h : e + 256 * signbitOf x < 512) (y : ℚ) :
    Float32Of (.finite x) (.finite y) ↔ y = unpacked (e + 256 * signbitOf x) M := by
  obtain ⟨s, hs, hback⟩ := pack_ok hM h₀ h
  constructor
  · rintro ⟨s', hs', hy⟩
    rw [hpack, hs] at hs'
    cases hs'
    rw [hback] at hy
    exact (LuaNumber.finite.inj (Except.ok.inj hy)).symm
  · rintro rfl
    exact ⟨s, hpack.trans hs, hback⟩

end Written

/-! ## The normal numbers -/

/-- The normal value of sign `x < 0`, mantissa bits `m` and exponent `k`. -/
structure Normal (x : ℚ) (m : ℕ) (k : ℤ) : Prop where
  bits : m < 2 ^ 23
  least : -126 ≤ k
  greatest : k ≤ 127
  abs_eq : |x| = (1 + m / 2 ^ 23) * 2 ^ k

/-- Zero, or a normal binary32 value. -/
def IsSingle (x : ℚ) : Prop := x = 0 ∨ ∃ m k, Normal x m k

/-- A normal value whose mantissa bits are all ones. -/
def AllOnes (x : ℚ) : Prop := ∃ k, Normal x (2 ^ 23 - 1) k

theorem Normal.ne_zero {x : ℚ} {m : ℕ} {k : ℤ} (h : Normal x m k) : x ≠ 0 := by
  rw [← abs_pos, h.abs_eq]
  positivity

/-- A number and what is read back, where the sign is. -/
theorem unpacked_of_range {x : ℚ} {e : ℤ} {M : ℕ} (h₁ : 1 ≤ e) (h₂ : e ≤ 255) :
    unpacked (e + 256 * signbitOf x) M =
      (if x < 0 then -1 else 1) * ((1 + M / 2 ^ 23) * 2 ^ (e - 127)) := by
  unfold unpacked signbitOf
  by_cases hneg : x < 0
  · have hmod : (e + 256 * 1) % 256 = e := by omega
    rw [if_pos hneg, if_pos hneg, hmod, if_neg (by omega), if_pos (by omega)]
  · have hmod : (e + 256 * 0) % 256 = e := by omega
    rw [if_neg hneg, if_neg hneg, hmod, if_neg (by omega), if_neg (by omega)]

theorem signed_abs (x : ℚ) : (if x < 0 then -1 else 1) * |x| = x := by
  split
  next hneg => rw [abs_of_neg hneg, neg_mul_neg, one_mul]
  next hnn => rw [abs_of_nonneg (not_lt.mp hnn), one_mul]

theorem abs_signed (x y : ℚ) : |(if x < 0 then -1 else 1) * y| = |y| := by
  split
  · rw [neg_one_mul, abs_neg]
  · rw [one_mul]

theorem in_range (x : ℚ) {e : ℤ} (h₁ : 0 ≤ e) (h₂ : e ≤ 255) :
    0 ≤ e + 256 * signbitOf x ∧ e + 256 * signbitOf x < 512 := by
  unfold signbitOf
  split <;> omega

/-- A mantissa with a bit that is 0 comes back. -/
theorem Normal.kept {x : ℚ} {m : ℕ} {k : ℤ} (h : Normal x m k) (hm : m < 2 ^ 23 - 1) :
    Float32Of (.finite x) (.finite x) := by
  obtain ⟨e, M, hM, hmantissa, hlow, hhigh, hpack⟩ := float2str_spec h.ne_zero
  have hpos : (0 : ℚ) < 2 ^ k := by positivity
  have hm' : (m : ℚ) ≤ 2 ^ 23 - 2 := by
    have hle : m + 2 ≤ 2 ^ 23 := by omega
    have hcast : ((m + 2 : ℕ) : ℚ) ≤ ((2 ^ 23 : ℕ) : ℚ) := by exact_mod_cast hle
    push_cast at hcast
    linarith
  have hk : k ≤ e - 127 := by
    rw [← roundsTo_le_iff hlow hhigh, h.abs_eq]
    refine (roundsTo_lt k).le.trans ?_
    rw [one_add_mul]
    exact le_add_of_nonneg_right (by positivity)
  have hk' : ¬ k + 1 ≤ e - 127 := by
    rw [← roundsTo_le_iff hlow hhigh, h.abs_eq, not_le]
    unfold roundsTo
    rw [zpow_add_one₀ (by norm_num), mul_comm ((2 : ℚ) ^ k), ← mul_assoc]
    refine mul_lt_mul_of_pos_right ?_ hpos
    linarith
  obtain rfl : e = k + 127 := by omega
  have hexp : k + 127 - 127 = k := by omega
  have hMm : M = m := by
    have hdiv : (1 + (m : ℚ) / 2 ^ 23) * 2 ^ k / 2 ^ k = 1 + m / 2 ^ 23 :=
      mul_div_cancel_right₀ _ hpos.ne'
    rw [mantissaOf, hexp, h.abs_eq, hdiv, add_sub_cancel_left,
      div_mul_cancel₀ _ (by norm_num)] at hmantissa
    have hfloor : ⌊(1 / 2 : ℚ) + m⌋ = m := by
      rw [Int.floor_add_natCast]
      norm_num
    exact_mod_cast hmantissa.trans hfloor
  have hleast := h.least
  have hgreatest := h.greatest
  obtain ⟨hu, hu'⟩ := in_range x (e := k + 127) (by omega) (by omega)
  rw [float32Of_iff hM hpack hu hu', unpacked_of_range (by omega) (by omega), hexp, hMm, ← h.abs_eq,
    signed_abs]

/-- A mantissa of ones is rounded to the next power of two. -/
theorem Normal.changed {x : ℚ} {k : ℤ} (h : Normal x (2 ^ 23 - 1) k) :
    ¬ Float32Of (.finite x) (.finite x) := by
  obtain ⟨e, M, hM, -, hlow, hhigh, hpack⟩ := float2str_spec h.ne_zero
  have habs : |x| = roundsTo (k + 1) := by
    rw [h.abs_eq, roundsTo, zpow_add_one₀ (by norm_num)]
    norm_num
    ring
  have hk : k + 1 ≤ e - 127 := (roundsTo_le_iff hlow hhigh _).mp habs.ge
  have hk' : ¬ k + 2 ≤ e - 127 := by
    rw [← roundsTo_le_iff hlow hhigh, habs, not_le]
    exact roundsTo_strictMono (by omega)
  obtain rfl : e = k + 128 := by omega
  have hleast := h.least
  have hgreatest := h.greatest
  obtain ⟨hu, hu'⟩ := in_range x (e := k + 128) (by omega) (by omega)
  rw [float32Of_iff hM hpack hu hu', unpacked_of_range (by omega) (by omega)]
  intro heq
  have hback := congrArg abs heq
  rw [abs_signed, habs, abs_of_nonneg (by positivity), show k + 128 - 127 = k + 1 by omega] at hback
  have hlt := roundsTo_lt (k + 1)
  have hle : (2 : ℚ) ^ (k + 1) ≤ (1 + M / 2 ^ 23) * 2 ^ (k + 1) := by
    rw [one_add_mul]
    exact le_add_of_nonneg_right (by positivity)
  linarith

/-- **The float codec** is exact on the normal values but for those whose mantissa bits are
all ones. -/
theorem float2str_exact_iff {x : ℚ} (hx : IsSingle x) :
    Float32Of (.finite x) (.finite x) ↔ ¬ AllOnes x := by
  constructor
  · rintro hkept ⟨k, hones⟩
    exact hones.changed hkept
  · intro hones
    rcases hx with rfl | ⟨m, k, hnormal⟩
    · exact ⟨[0, 0, 0, 0], rfl, rfl⟩
    · have hm : m ≠ 2 ^ 23 - 1 := fun heq => hones ⟨k, heq ▸ hnormal⟩
      exact hnormal.kept (lt_of_le_of_ne (Nat.le_sub_one_of_lt hnormal.bits) hm)

/-- The largest number below 2 is read back as 2. -/
theorem allOnes_changed : IsSingle (2 - 1 / 2 ^ 23) ∧
    Float32Of (.finite (2 - 1 / 2 ^ 23)) (.finite 2) := by
  refine ⟨Or.inr ⟨2 ^ 23 - 1, 0, by norm_num, by norm_num, by norm_num, ?_⟩, ?_⟩
  · rw [abs_of_pos (by norm_num)]
    norm_num
  · exact ⟨[64, 0, 0, 0], by decide +kernel, by decide +kernel⟩

/-- -3/4 comes back. -/
theorem float2str_exact_three_quarters :
    Float32Of (.finite (-3 / 4)) (.finite (-3 / 4)) ↔ ¬ AllOnes (-3 / 4) := by
  refine float2str_exact_iff (Or.inr ⟨2 ^ 22, -1, by norm_num, by norm_num, by norm_num, ?_⟩)
  rw [abs_of_neg (by norm_num)]
  norm_num

/-! ## Outside of the normal range -/

/-- A magnitude below the smallest or above the largest normal value. -/
def OutOfRange (x : ℚ) : Prop := |x| < 2 ^ (-126 : ℤ) ∨ (2 - 1 / 2 ^ 23) * 2 ^ (127 : ℤ) < |x|

/-- An error, or bytes that stand for zero or for a number of the same sign that is no
larger. -/
def Harmless (x : ℚ) : Prop :=
  (∃ err, float2str (.finite x) = .error err) ∨
    ∃ y, Float32Of (.finite x) (.finite y) ∧ (y = 0 ∨ (0 < x * y ∧ |y| ≤ |x|))

/-- The numbers outside of the range for which neither the rounding nor the exponent that
runs into the sign does harm. -/
def Spared (x : ℚ) : Prop :=
  if |x| < 1 then
    |x| < roundsTo (-126) ∧ (x < 0 → |x| < roundsTo (-382) ∨ roundsTo (-127) ≤ |x|)
  else
    (|x| < roundsTo 129 → Int.fract (|x| / 2 ^ 105) < 1 / 2) ∧
      (0 < x → x < roundsTo 130 ∨ roundsTo 385 ≤ x)

/-- The sign that is read back is that of the number only where the exponent fits its
eight bits. -/
theorem unpacked_sign {x : ℚ} {e : ℤ} {M : ℕ} (hx : x ≠ 0) (h₀ : 0 ≤ e + 256 * signbitOf x)
    (h : e + 256 * signbitOf x < 512) (hu : (e + 256 * signbitOf x) % 256 ≠ 0) :
    0 < x * unpacked (e + 256 * signbitOf x) M ↔ 1 ≤ e ∧ e ≤ 255 := by
  have hpos : (0 : ℚ) < (1 + M / 2 ^ 23) * 2 ^ ((e + 256 * signbitOf x) % 256 - 127) := by positivity
  unfold unpacked
  rw [if_neg hu]
  generalize (1 + (M : ℚ) / 2 ^ 23) * 2 ^ ((e + 256 * signbitOf x) % 256 - 127) = v at hpos
  unfold signbitOf at h₀ h hu ⊢
  rcases lt_or_gt_of_ne hx with hneg | hx'
  · rw [if_pos hneg] at h₀ h hu ⊢
    by_cases hread : 256 ≤ e + 256 * 1
    · rw [if_pos hread, neg_one_mul]
      exact iff_of_true (mul_pos_of_neg_of_neg hneg (neg_neg_of_pos hpos)) (by omega)
    · rw [if_neg hread, one_mul]
      exact iff_of_false (not_lt.mpr (mul_neg_of_neg_of_pos hneg hpos).le) (by omega)
  · rw [if_neg (not_lt.mpr hx'.le)] at h₀ h hu ⊢
    by_cases hread : 256 ≤ e + 256 * 0
    · rw [if_pos hread, neg_one_mul]
      exact iff_of_false (not_lt.mpr (mul_neg_of_pos_of_neg hx' (neg_neg_of_pos hpos)).le) (by omega)
    · rw [if_neg hread, one_mul]
      exact iff_of_true (mul_pos hx' hpos) (by omega)

/-- The three ways in which a number is harmless: the exponent and the sign are refused,
they stand for zero, or the exponent fits and the mantissa has not been rounded up. -/
theorem harmless_iff_of_spec {x : ℚ} {e : ℤ} {M : ℕ} (hx : x ≠ 0) (hM : M < 2 ^ 23)
    (hpack : float2str (.finite x) = pack (signbitOf x) e M) :
    Harmless x ↔ (e + 256 * signbitOf x < 0 ∨ 512 ≤ e + 256 * signbitOf x ∨
      (e + 256 * signbitOf x) % 256 = 0) ∨
      (1 ≤ e ∧ e ≤ 255) ∧ (1 + M / 2 ^ 23) * 2 ^ (e - 127) ≤ |x| := by
  by_cases hrefused : e + 256 * signbitOf x < 0 ∨ 512 ≤ e + 256 * signbitOf x
  · obtain ⟨err, herr⟩ := pack_error (M := M) hrefused
    refine iff_of_true (Or.inl ⟨err, hpack.trans herr⟩) (Or.inl ?_)
    omega
  · obtain ⟨h₀, h⟩ : 0 ≤ e + 256 * signbitOf x ∧ e + 256 * signbitOf x < 512 := by omega
    have hwritten := float32Of_iff hM hpack h₀ h
    have hharmless : Harmless x ↔ unpacked (e + 256 * signbitOf x) M = 0 ∨
        (0 < x * unpacked (e + 256 * signbitOf x) M ∧
          |unpacked (e + 256 * signbitOf x) M| ≤ |x|) := by
      constructor
      · rintro (⟨err, herr⟩ | ⟨y, hy, hsafe⟩)
        · obtain ⟨s, hs, -⟩ := pack_ok hM h₀ h
          rw [hpack, hs] at herr
          cases herr
        · exact (hwritten y).mp hy ▸ hsafe
      · exact fun hsafe => Or.inr ⟨_, (hwritten _).mpr rfl, hsafe⟩
    rw [hharmless]
    by_cases hu : (e + 256 * signbitOf x) % 256 = 0
    · exact iff_of_true (Or.inl (if_pos hu)) (Or.inl (by omega))
    · have hne : unpacked (e + 256 * signbitOf x) M ≠ 0 := by
        unfold unpacked
        rw [if_neg hu]
        split <;> positivity
      have hexponent : ¬ (e + 256 * signbitOf x < 0 ∨ 512 ≤ e + 256 * signbitOf x ∨
          (e + 256 * signbitOf x) % 256 = 0) := by omega
      rw [or_iff_right hne, or_iff_right hexponent, unpacked_sign hx h₀ h hu]
      refine and_congr_right fun hfits => ?_
      rw [unpacked_of_range hfits.1 hfits.2, abs_signed, abs_of_nonneg (by positivity)]

/-- A mantissa is written no larger than it is, unless it is rounded up. -/
theorem rounded_le_iff {x : ℚ} {e : ℤ} {M : ℕ} (hM : (M : ℤ) = mantissaOf x e) :
    (1 + M / 2 ^ 23) * 2 ^ (e - 127) ≤ |x| ↔
      Int.fract (|x| / 2 ^ (e - 150)) < 1 / 2 := by
  have hpos : (0 : ℚ) < 2 ^ (e - 150) := by positivity
  have hpow : (2 : ℚ) ^ (e - 127) = 2 ^ 23 * 2 ^ (e - 150) := by
    rw [show e - 127 = 23 + (e - 150) by omega, zpow_add₀ (by norm_num)]
    norm_num
  -- in units of the last bit the number that is written is rounded half up
  have hround : ((M : ℤ) + 2 ^ 23 : ℤ) = ⌊1 / 2 + |x| / 2 ^ (e - 150)⌋ := by
    rw [hM, mantissaOf, ← Int.floor_add_intCast]
    congr 1
    rw [hpow]
    push_cast
    field_simp
    ring
  have hwritten : (1 + M / 2 ^ 23) * 2 ^ (e - 127) =
      ((⌊1 / 2 + |x| / 2 ^ (e - 150)⌋ : ℤ) : ℚ) * 2 ^ (e - 150) := by
    rw [← hround, hpow]
    push_cast
    ring
  rw [hwritten, ← le_div_iff₀ hpos]
  generalize |x| / 2 ^ (e - 150) = z
  have hz := Int.floor_add_fract z
  have hfract := Int.fract_nonneg z
  have hfract' := Int.fract_lt_one z
  by_cases hhalf : Int.fract z < 1 / 2
  · have hfloor : ⌊1 / 2 + z⌋ = ⌊z⌋ := by
      rw [Int.floor_eq_iff]
      constructor <;> linarith
    rw [hfloor]
    exact iff_of_true (Int.floor_le z) hhalf
  · have hfloor : ⌊1 / 2 + z⌋ = ⌊z⌋ + 1 := by
      rw [Int.floor_eq_iff]
      push_cast
      constructor <;> linarith
    rw [hfloor]
    refine iff_of_false (not_le.mpr ?_) hhalf
    exact_mod_cast Int.lt_floor_add_one z

/-- Below the normal range a number is harmful when it is rounded up to that range, or when
it is negative and its exponent clears the sign. -/
theorem harmless_iff_small {x : ℚ} (hne : x ≠ 0) (hx : |x| < 2 ^ (-126 : ℤ)) :
    Harmless x ↔
      |x| < roundsTo (-126) ∧ (x < 0 → |x| < roundsTo (-382) ∨ roundsTo (-127) ≤ |x|) := by
  obtain ⟨e, M, hM, hmantissa, hlow, hhigh, hpack⟩ := float2str_spec hne
  have hle := roundsTo_le_iff hlow hhigh
  have hlt : ∀ j, |x| < roundsTo j ↔ ¬ j ≤ e - 127 := fun j => by rw [← not_le, hle]
  rw [harmless_iff_of_spec hne hM hpack, hlt, hlt, hle]
  have hfits : e ≤ 1 := by
    by_contra hbig
    have h := (hle (-125)).mpr (by omega)
    exact absurd ((lt_roundsTo_succ (-126)).trans_le h) (not_lt.mpr hx.le)
  -- the only exponent in the range is 1, for what is rounded up to the smallest normal value
  have hup : ¬ ((1 ≤ e ∧ e ≤ 255) ∧ (1 + (M : ℚ) / 2 ^ 23) * 2 ^ (e - 127) ≤ |x|) := by
    rintro ⟨⟨hone, -⟩, hwritten⟩
    obtain rfl : e = 1 := by omega
    have hleast : (2 : ℚ) ^ (-126 : ℤ) ≤ (1 + M / 2 ^ 23) * 2 ^ (-126 : ℤ) := by
      rw [one_add_mul]
      exact le_add_of_nonneg_right (by positivity)
    exact absurd (hleast.trans hwritten) (not_le.mpr hx)
  rw [or_iff_left hup]
  unfold signbitOf
  by_cases hneg : x < 0
  · rw [if_pos hneg]
    simp only [hneg, true_implies]
    omega
  · rw [if_neg hneg]
    simp only [hneg, false_implies, and_true]
    omega

/-- Above it a number is harmful when its mantissa is rounded up, or when it is positive and
its exponent sets the sign. -/
theorem harmless_iff_large {x : ℚ} (hx : (2 - 1 / 2 ^ 23) * 2 ^ (127 : ℤ) < |x|) :
    Harmless x ↔ (|x| < roundsTo 129 → Int.fract (|x| / 2 ^ 105) < 1 / 2) ∧
      (0 < x → x < roundsTo 130 ∨ roundsTo 385 ≤ x) := by
  have hgreatest : (2 - 1 / 2 ^ 23 : ℚ) * 2 ^ (127 : ℤ) = roundsTo 128 := by
    unfold roundsTo
    norm_num
  rw [hgreatest] at hx
  have hne : x ≠ 0 := abs_pos.mp ((roundsTo_pos 128).trans hx)
  obtain ⟨e, M, hM, hmantissa, hlow, hhigh, hpack⟩ := float2str_spec hne
  have hle := roundsTo_le_iff hlow hhigh
  have hlt : ∀ j, |x| < roundsTo j ↔ ¬ j ≤ e - 127 := fun j => by rw [← not_le, hle]
  have hexponent : 255 ≤ e := by
    have h := (hle 128).mp hx.le
    omega
  rw [harmless_iff_of_spec hne hM hpack, rounded_le_iff hmantissa, hlt]
  have hunit : (e ≤ 255 ∧ Int.fract (|x| / 2 ^ (e - 150)) < 1 / 2) ↔
      (e ≤ 255 ∧ Int.fract (|x| / 2 ^ 105) < 1 / 2) := by
    refine and_congr_right fun h => ?_
    obtain rfl : e = 255 := by omega
    rfl
  rw [and_assoc, hunit]
  unfold signbitOf
  by_cases hneg : x < 0
  · have hnpos : ¬ 0 < x := not_lt.mpr hneg.le
    rw [if_pos hneg]
    simp only [hnpos, false_implies, and_true]
    by_cases hhalf : Int.fract (|x| / 2 ^ 105) < 1 / 2
    · simp only [hhalf, and_true, implies_true, iff_true]
      omega
    · simp only [hhalf, and_false, or_false, imp_false]
      omega
  · have hpos : 0 < x := lt_of_le_of_ne (not_lt.mp hneg) hne.symm
    rw [if_neg hneg]
    rw [abs_of_pos hpos] at hle hlt ⊢
    simp only [hpos, true_implies]
    rw [hle, hlt]
    by_cases hhalf : Int.fract (x / 2 ^ 105) < 1 / 2
    · simp only [hhalf, and_true, implies_true, true_and]
      omega
    · simp only [hhalf, and_false, or_false, imp_false]
      omega

/-- **Out of the normal range** `float2str` does no harm to exactly the spared numbers. -/
theorem harmless_iff {x : ℚ} (hx : OutOfRange x) : Harmless x ↔ Spared x := by
  unfold Spared
  rcases eq_or_ne x 0 with rfl | hne
  · have hzero : Harmless 0 := Or.inr ⟨0, ⟨[0, 0, 0, 0], rfl, rfl⟩, Or.inl rfl⟩
    rw [abs_zero, if_pos one_pos]
    exact iff_of_true hzero ⟨roundsTo_pos _, fun h => absurd h (lt_irrefl 0)⟩
  · rcases hx with hsmall | hlarge
    · have hone : |x| < 1 := hsmall.trans (by norm_num)
      rw [if_pos hone, harmless_iff_small hne hsmall]
    · have hone : ¬ |x| < 1 := not_lt.mpr (le_trans (by norm_num) hlarge.le)
      rw [if_neg hone, harmless_iff_large hlarge]

/-- A negative number below the range comes back as a positive one. -/
theorem underflow_flips : OutOfRange (-1 / 2 ^ 130) ∧
    Float32Of (.finite (-1 / 2 ^ 130)) (.finite (2 ^ 126)) := by
  refine ⟨Or.inl ?_, ?_⟩
  · rw [abs_of_neg (by norm_num)]
    norm_num
  · exact ⟨[126, 128, 0, 0], by decide +kernel, by decide +kernel⟩

/-- 2 ^ 400 is refused. -/
theorem harmless_large_power : Harmless (2 ^ 400) ↔ Spared (2 ^ 400) := by
  refine harmless_iff (Or.inr ?_)
  rw [abs_of_pos (by positivity)]
  exact lt_of_lt_of_le (by norm_num) (pow_le_pow_right₀ one_le_two (show 128 ≤ 400 by decide))

end Lua2SC.Codec

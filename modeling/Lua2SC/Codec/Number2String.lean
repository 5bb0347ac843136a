import Lua2SC.Lib.Digits

/-!
# `number2string.lua`: integers and floats as big-endian bytes

`int2str`/`str2int` are the two's-complement codec of every count, index and
length field: SynthDef files, TCP frame headers and NRT score frames all go
through it. `float2str`/`str2float32` are the IEEE binary32 codec, computed
with `math.frexp` and `math.ldexp` on exact numbers.

`int2str` checks the top digit only (`bytes[len] < 128`), so it raises on a
number with bit `8·len - 1` set but not on every one past `256 ^ len`; the round
trip `str2int_int2str` is therefore stated for the numbers of the field, and
`int2str_faithful_iff` says which other numbers are written as if they fitted.
No caller passes `int2str`'s third argument (`notrev`), so it has no
counterpart here.
-/

namespace Lua2SC.Codec

open Lua2SC.Lua Lua2SC.Digits

/-! ## Integers -/

/-- `int2str(int, len)`: `len` bytes, most significant first. -/
def int2str (int : ℤ) (len : ℕ) : LuaM LString := do
  let signbit : ℤ := if int < 0 then 1 else 0
  let number : ℤ := int + signbit * 2 ^ (len * 8 - 1)
  luaAssert (0 ≤ number) "el entero no cabe en esta longitud"
  let bytes := leDigits 256 len number.toNat
  match bytes.getLast? with
  | none => .error "attempt to compare nil with number"
  | some top =>
    luaAssert (top < 128) "entero no cabe en longitud"
    let bytes := bytes.dropLast ++ [top + signbit.toNat * 128]
    return (bytes.map UInt8.ofNat).reverse

/-- `str2int(a)`: two's complement, most significant byte first. -/
def str2int : LString → LuaM ℤ
  | [] => .error "attempt to perform arithmetic on a nil value"
  | b :: rest =>
    let a1 := b.toNat % 128
    let sig : ℤ := (b.toNat - a1) / 128
    let number := horner 256 a1 (rest.map UInt8.toNat)
    .ok (number - sig * 2 ^ ((rest.length + 1) * 8 - 1))

/-- The integers a signed field of `len` bytes can hold. -/
def FitsInt (int : ℤ) (len : ℕ) : Prop :=
  -2 ^ (len * 8 - 1) ≤ int ∧ int < 2 ^ (len * 8 - 1)

instance (int : ℤ) (len : ℕ) : Decidable (FitsInt int len) :=
  inferInstanceAs (Decidable (_ ∧ _))

/-- What lies between zero and a number of the field belongs to it. -/
theorem FitsInt.of_le {n m : ℤ} {len : ℕ} (h : FitsInt n len) (h₀ : 0 ≤ m) (hm : m ≤ n) :
    FitsInt m len := by
  have hneg : (-2 ^ (len * 8 - 1) : ℤ) ≤ 0 := neg_nonpos.mpr (by positivity)
  exact ⟨hneg.trans h₀, hm.trans_lt h.2⟩

theorem fitsInt_zero (len : ℕ) : FitsInt 0 len :=
  ⟨neg_nonpos.mpr (by positivity), by positivity⟩

theorem fitsInt_one {len : ℕ} (hlen : 0 < len) : FitsInt 1 len := by
  have hpow : (1 : ℤ) < 2 ^ (len * 8 - 1) := one_lt_pow₀ (by norm_num) (by omega)
  exact ⟨(neg_nonpos.mpr (by positivity)).trans zero_le_one, hpow⟩

theorem fitsInt_neg_one (len : ℕ) : FitsInt (-1) len := by
  have hpos : (0 : ℤ) < 2 ^ (len * 8 - 1) := by positivity
  unfold FitsInt
  constructor <;> omega

/-- The sign bit `int2str` computes. -/
private def signOf (int : ℤ) : ℕ := if int < 0 then 1 else 0

/-- A number of the field encodes: its digits below the top one, under a top
byte that carries the sign. -/
theorem int2str_eq {int : ℤ} {len : ℕ} (h : FitsInt int (len + 1)) :
    ∃ number : ℕ, (number : ℤ) = int + signOf int * 2 ^ (8 * len + 7) ∧
      number < 2 ^ (8 * len + 7) ∧
      int2str int (len + 1) = .ok
        (UInt8.ofNat (number / 256 ^ len + signOf int * 128)
          :: ((leDigits 256 len number).map UInt8.ofNat).reverse) := by
  obtain ⟨hlo, hhi⟩ := h
  have hexp : (len + 1) * 8 - 1 = 8 * len + 7 := by omega
  rw [hexp] at hlo hhi
  have hnn : 0 ≤ int + signOf int * 2 ^ (8 * len + 7) := by
    unfold signOf; split <;> push_cast <;> omega
  have hlt : int + signOf int * 2 ^ (8 * len + 7) < 2 ^ (8 * len + 7) := by
    unfold signOf; split <;> push_cast <;> omega
  obtain ⟨number, hnum⟩ := Int.eq_ofNat_of_zero_le hnn
  have hnlt : number < 2 ^ (8 * len + 7) := by
    have : (number : ℤ) < 2 ^ (8 * len + 7) := by rw [← hnum]; exact hlt
    exact_mod_cast this
  -- the top digit is below 128, so the second assertion passes
  have hpow : 2 ^ (8 * len + 7) = 128 * 256 ^ len := by
    rw [Nat.pow_add, Nat.pow_mul, Nat.mul_comm]
  have htop : number / 256 ^ len < 128 := by
    rw [Nat.div_lt_iff_lt_mul (by positivity)]
    rw [hpow] at hnlt
    exact hnlt
  have hmod : number / 256 ^ len % 256 = number / 256 ^ len := Nat.mod_eq_of_lt (by omega)
  have hsig : (if int < 0 then (1 : ℤ) else 0) = signOf int := by
    unfold signOf; split <;> rfl
  refine ⟨number, hnum.symm, hnlt, ?_⟩
  unfold int2str
  simp only [hsig, hexp, hnum, luaAssert_true (Int.natCast_nonneg number), ok_bind,
    Int.toNat_natCast, leDigits_succ_top, hmod, List.getLast?_concat, List.dropLast_concat,
    luaAssert_true htop]
  simp [pure, Except.pure]

/-- A number without a sign is written as its digits. -/
theorem int2str_natCast {n len : ℕ} (h : n < 2 ^ (8 * len + 7)) :
    int2str n (len + 1) = .ok ((leDigits 256 (len + 1) n).map UInt8.ofNat).reverse := by
  have hfits : FitsInt n (len + 1) := by
    unfold FitsInt
    rw [show (len + 1) * 8 - 1 = 8 * len + 7 by omega]
    have hn : (n : ℤ) < 2 ^ (8 * len + 7) := by exact_mod_cast h
    omega
  have hsign : signOf n = 0 := if_neg (by omega)
  obtain ⟨number, hnum, hlt, hwrite⟩ := int2str_eq hfits
  rw [hsign] at hnum hwrite
  obtain rfl : number = n := by
    push_cast at hnum
    omega
  have htop : number / 256 ^ len % 256 = number / 256 ^ len := by
    refine Nat.mod_eq_of_lt ((Nat.div_lt_iff_lt_mul (by positivity)).mpr ?_)
    refine hlt.trans_le ?_
    rw [show 8 * len + 7 = 7 + 8 * len by omega, Nat.pow_add, Nat.pow_mul]
    exact Nat.mul_le_mul_right _ (by decide)
  rw [hwrite, leDigits_succ_top, List.map_append, List.reverse_append, htop]
  rfl

/-- A number of the field encodes to exactly `len` bytes. -/
theorem int2str_ok {int : ℤ} {len : ℕ} (hlen : 0 < len) (h : FitsInt int len) :
    ∃ s, int2str int len = .ok s ∧ s.length = len := by
  obtain ⟨k, rfl⟩ : ∃ k, len = k + 1 := ⟨len - 1, by omega⟩
  obtain ⟨number, -, -, hs⟩ := int2str_eq h
  exact ⟨_, hs, by simp⟩

/-- Whatever is written has the length asked for. -/
theorem int2str_length {int : ℤ} {len : ℕ} (hlen : 0 < len) {s : LString}
    (hs : int2str int len = .ok s) : s.length = len := by
  obtain ⟨k, rfl⟩ : ∃ k, len = k + 1 := ⟨len - 1, by omega⟩
  unfold int2str at hs
  obtain ⟨-, -, hs⟩ := bind_ok.mp hs
  simp only [leDigits_succ_top, List.getLast?_concat, List.dropLast_concat] at hs
  obtain ⟨-, -, hret⟩ := bind_ok.mp hs
  cases hret
  simp

/-- **The integer codec round trip** on the numbers of the field. -/
theorem str2int_int2str {int : ℤ} {len : ℕ} {s : LString} (hlen : 0 < len)
    (h : FitsInt int len) (hs : int2str int len = .ok s) : str2int s = .ok int := by
  obtain ⟨k, rfl⟩ : ∃ k, len = k + 1 := ⟨len - 1, by omega⟩
  obtain ⟨number, hnum, hlt, heq⟩ := int2str_eq h
  rw [heq] at hs
  have hs' := (Except.ok.inj hs).symm
  subst hs'
  have hpow : 2 ^ (8 * k + 7) = 128 * 256 ^ k := by
    rw [Nat.pow_add, Nat.pow_mul, Nat.mul_comm]
  have htop : number / 256 ^ k < 128 := by
    rw [Nat.div_lt_iff_lt_mul (by positivity)]
    rw [hpow] at hlt
    exact hlt
  have hsgn : signOf int ≤ 1 := by unfold signOf; split <;> omega
  have hbyte : (UInt8.ofNat (number / 256 ^ k + signOf int * 128)).toNat
      = number / 256 ^ k + signOf int * 128 := by
    rw [UInt8.toNat_ofNat']; exact Nat.mod_eq_of_lt (by omega)
  -- the digits below the top byte come back as they were
  have hdig : (((leDigits 256 k number).map UInt8.ofNat).reverse).map UInt8.toNat
      = (leDigits 256 k number).reverse := by
    rw [List.map_reverse, List.map_map]
    congr 1
    conv_rhs => rw [← List.map_id (leDigits 256 k number)]
    refine List.map_congr_left fun d hd => ?_
    have hd' : d < 256 := leDigits_lt (by norm_num) _ _ d hd
    simp [UInt8.toNat_ofNat', Nat.mod_eq_of_lt hd']
  have ha1 : (number / 256 ^ k + signOf int * 128) % 128 = number / 256 ^ k := by
    rw [Nat.add_mul_mod_self_right, Nat.mod_eq_of_lt htop]
  unfold str2int
  simp only [hdig, hbyte, ha1, horner_leDigits, List.length_reverse,
    List.length_map, leDigits_length, Except.ok.injEq]
  have hdm : number / 256 ^ k * 256 ^ k + number % 256 ^ k = number := Nat.div_add_mod' _ _
  have hexp : (k + 1) * 8 - 1 = 8 * k + 7 := by omega
  rw [hdm, hexp, hnum]
  have hsig : (((number / 256 ^ k + signOf int * 128 : ℕ) : ℤ) - (number / 256 ^ k : ℕ)) / 128
      = signOf int := by
    rw [Nat.cast_add, add_sub_cancel_left, Nat.cast_mul]
    exact Int.mul_ediv_cancel _ (by norm_num)
  rw [hsig]
  ring

section Exact

variable {int : ℤ} {len : ℕ}

/-- Below the field the first assertion fails. -/
theorem int2str_below (h : int < -2 ^ (len * 8 - 1)) : ∃ err, int2str int len = .error err := by
  have hneg : int < 0 := h.trans_le (neg_nonpos.mpr (by positivity))
  have hassert : ¬ (0 : ℤ) ≤ int + 1 * 2 ^ (len * 8 - 1) := by omega
  refine ⟨"el entero no cabe en esta longitud", ?_⟩
  unfold int2str
  rw [if_pos hneg]
  dsimp only
  unfold luaAssert
  rw [if_neg hassert]
  rfl

/-- Of a number that is not negative only its lowest bytes are seen. -/
theorem int2str_wraps (h : 0 ≤ int) : int2str int len = int2str (int % 256 ^ len) len := by
  have hmod : (0 : ℤ) ≤ int % 256 ^ len := Int.emod_nonneg _ (by positivity)
  obtain ⟨n, rfl⟩ := Int.eq_ofNat_of_zero_le h
  have hcast : ((n : ℤ) % 256 ^ len).toNat = n % 256 ^ len := by
    rw [show ((n : ℤ) % 256 ^ len) = ((n % 256 ^ len : ℕ) : ℤ) by push_cast; rfl, Int.toNat_natCast]
  unfold int2str
  rw [if_neg (not_lt.mpr h), if_neg (not_lt.mpr hmod)]
  simp only [zero_mul, add_zero, luaAssert_true h, luaAssert_true hmod, ok_bind, hcast,
    Int.toNat_natCast, leDigits_mod]

/-- In the upper half of the unsigned numbers the second assertion fails. -/
theorem int2str_above (hlen : 0 < len) (h : 2 ^ (len * 8 - 1) ≤ int) (hlt : int < 256 ^ len) :
    ∃ err, int2str int len = .error err := by
  obtain ⟨k, rfl⟩ : ∃ k, len = k + 1 := ⟨len - 1, by omega⟩
  have hnn : 0 ≤ int := le_trans (by positivity) h
  obtain ⟨n, rfl⟩ := Int.eq_ofNat_of_zero_le hnn
  have hexp : (k + 1) * 8 - 1 = 7 + 8 * k := by omega
  have hpow : (2 : ℕ) ^ (7 + 8 * k) = 128 * 256 ^ k := by
    rw [Nat.pow_add, Nat.pow_mul]
  have hn : 128 * 256 ^ k ≤ n := by
    rw [hexp] at h
    rw [← hpow]
    exact_mod_cast h
  have hn' : n < 256 * 256 ^ k := by
    rw [← Nat.pow_succ']
    exact_mod_cast hlt
  -- the top byte has its highest bit set
  have htop : 128 ≤ n / 256 ^ k := (Nat.le_div_iff_mul_le (by positivity)).mpr hn
  have hbyte : n / 256 ^ k % 256 = n / 256 ^ k :=
    Nat.mod_eq_of_lt ((Nat.div_lt_iff_lt_mul (by positivity)).mpr hn')
  refine ⟨"entero no cabe en longitud", ?_⟩
  unfold int2str
  rw [if_neg (not_lt.mpr hnn)]
  simp only [zero_mul, add_zero, luaAssert_true hnn, ok_bind, Int.toNat_natCast,
    leDigits_succ_top, hbyte, List.getLast?_concat]
  unfold luaAssert
  rw [if_neg (not_lt.mpr htop)]
  rfl

/-- What the codec should do with a number: refuse it because it does not fit, or write
`len` bytes that are read back as it. -/
def Faithful (int : ℤ) (len : ℕ) : Prop :=
  ((∃ err, int2str int len = .error err) ∧ ¬ FitsInt int len) ∨
    ∃ s, int2str int len = .ok s ∧ s.length = len ∧ str2int s = .ok int

/-- A byte string is read as a number that is written as it. -/
theorem int2str_str2int {s : LString} (hs : s ≠ []) :
    ∃ int, str2int s = .ok int ∧ int2str int s.length = .ok s := by
  obtain ⟨b, rest, rfl⟩ := List.exists_cons_of_ne_nil hs
  have hb : b.toNat < 256 := b.toNat_lt
  have hds : ∀ d ∈ rest.map UInt8.toNat, d < 256 := by
    intro d hd
    obtain ⟨x, -, rfl⟩ := List.mem_map.mp hd
    exact x.toNat_lt
  obtain ⟨sig, hsig, hsplit⟩ : ∃ sig ≤ 1, b.toNat = b.toNat % 128 + sig * 128 :=
    ⟨b.toNat / 128, by omega, by omega⟩
  have ha1 : b.toNat % 128 < 128 := Nat.mod_lt _ (by norm_num)
  generalize b.toNat % 128 = a1 at hsplit ha1
  have hpow : 2 ^ (8 * rest.length + 7) = 128 * 256 ^ rest.length := by
    rw [Nat.pow_add, Nat.pow_mul, Nat.mul_comm]
  have hread : str2int (b :: rest) = .ok
      ((horner 256 a1 (rest.map UInt8.toNat) : ℤ) - sig * 2 ^ (8 * rest.length + 7)) := by
    have hmod : b.toNat % 128 = a1 := by omega
    have hdiv : ((b.toNat : ℤ) - a1) / 128 = sig := by omega
    have hexp : (rest.length + 1) * 8 - 1 = 8 * rest.length + 7 := by omega
    unfold str2int
    simp only [hmod, hdiv, hexp]
  obtain ⟨hlt, hle⟩ := horner_lt a1 hds
  rw [List.length_map] at hlt hle
  have hdigits : leDigits 256 rest.length (horner 256 a1 (rest.map UInt8.toNat)) =
      (rest.map UInt8.toNat).reverse := by
    have hleDigits := leDigits_horner a1 hds
    rwa [List.length_map] at hleDigits
  generalize horner 256 a1 (rest.map UInt8.toNat) = n at hread hlt hle hdigits
  have htop : n / 256 ^ rest.length = a1 := Nat.div_eq_of_lt_le hle hlt
  have hn : n < 2 ^ (8 * rest.length + 7) := by
    rw [hpow]
    exact hlt.trans_le (Nat.mul_le_mul_right _ (by omega))
  have hn' : (n : ℤ) < 2 ^ (8 * rest.length + 7) := by exact_mod_cast hn
  refine ⟨_, hread, ?_⟩
  have hexp : (rest.length + 1) * 8 - 1 = 8 * rest.length + 7 := by omega
  have hfits : FitsInt ((n : ℤ) - sig * 2 ^ (8 * rest.length + 7)) (rest.length + 1) := by
    unfold FitsInt
    rw [hexp]
    interval_cases sig <;> omega
  have hsign : signOf ((n : ℤ) - sig * 2 ^ (8 * rest.length + 7)) = sig := by
    unfold signOf
    interval_cases sig
    · rw [if_neg (by omega)]
    · rw [if_pos (by omega)]
  obtain ⟨number, hnumber, -, hwrite⟩ := int2str_eq hfits
  rw [hsign, sub_add_cancel, Nat.cast_inj] at hnumber
  subst hnumber
  rw [List.length_cons, hwrite, hsign, htop, ← hsplit, UInt8.ofNat_toNat, hdigits,
    List.map_reverse, List.reverse_reverse, List.map_map]
  congr 2
  conv_rhs => rw [← List.map_id rest]
  exact List.map_congr_left fun x _ => UInt8.ofNat_toNat

end Exact

/-- **The integer codec** is exact but for the numbers from `256 ^ len` on whose lowest
bytes are those of a number of the field: they are written as that one. -/
theorem int2str_faithful_iff {len : ℕ} (hlen : 0 < len) (int : ℤ) :
    (Faithful int len ↔ int < 256 ^ len ∨ 2 ^ (len * 8 - 1) ≤ int % 256 ^ len) ∧
      ∀ s : LString, s ≠ [] → ∃ n, str2int s = .ok n ∧ int2str n s.length = .ok s := by
  refine ⟨?_, fun s hs => int2str_str2int hs⟩
  have hhalf : (2 : ℤ) ^ (len * 8 - 1) ≤ 256 ^ len := by
    rw [show (256 : ℤ) = 2 ^ 8 by norm_num, ← pow_mul]
    exact pow_le_pow_right₀ (by norm_num) (by omega)
  have hpos : (0 : ℤ) < 2 ^ (len * 8 - 1) := by positivity
  have hrefused : ∀ {err}, int2str int len = .error err → ¬ FitsInt int len → Faithful int len :=
    fun herr hfits => Or.inl ⟨⟨_, herr⟩, hfits⟩
  rcases lt_or_ge int (256 ^ len) with hlt | hge
  · refine iff_of_true ?_ (Or.inl hlt)
    rcases lt_or_ge int (-2 ^ (len * 8 - 1)) with hbelow | hlow
    · obtain ⟨err, herr⟩ := int2str_below hbelow
      exact hrefused herr fun hfits => absurd hfits.1 (by omega)
    · rcases lt_or_ge int (2 ^ (len * 8 - 1)) with hhigh | habove
      · obtain ⟨s, hs, hlength⟩ := int2str_ok hlen ⟨hlow, hhigh⟩
        exact Or.inr ⟨s, hs, hlength, str2int_int2str hlen ⟨hlow, hhigh⟩ hs⟩
      · obtain ⟨err, herr⟩ := int2str_above hlen habove hlt
        exact hrefused herr fun hfits => absurd hfits.2 (by omega)
  · have hnn : 0 ≤ int := le_trans (by positivity) hge
    have hmod : 0 ≤ int % 256 ^ len := Int.emod_nonneg _ (by positivity)
    have hmod' : int % 256 ^ len < 256 ^ len := Int.emod_lt_of_pos _ (by positivity)
    have hwraps : int2str int len = int2str (int % 256 ^ len) len := int2str_wraps hnn
    have hout : ¬ FitsInt int len := fun hfits => absurd hfits.2 (by omega)
    rcases lt_or_ge (int % 256 ^ len) (2 ^ (len * 8 - 1)) with hlow | habove
    · -- the lowest bytes are written, and they are read as another number
      have hfits : FitsInt (int % 256 ^ len) len := ⟨by omega, hlow⟩
      obtain ⟨s, hs, -⟩ := int2str_ok hlen hfits
      have hback := str2int_int2str hlen hfits hs
      refine iff_of_false ?_ (by omega)
      rintro (⟨⟨err, herr⟩, -⟩ | ⟨s', hs', -, hback'⟩)
      · rw [hwraps, hs] at herr
        cases herr
      · rw [hwraps, hs] at hs'
        cases hs'
        have heq := Except.ok.inj (hback.symm.trans hback')
        omega
    · obtain ⟨err, herr⟩ := int2str_above hlen habove hmod'
      exact iff_of_true (hrefused (hwraps.trans herr) hout) (Or.inr habove)

/-- 256 in one byte is written as 0, and no error is raised. -/
theorem int2str_byte_wraps :
    int2str 256 1 = .ok [0] ∧ str2int [0] = .ok 0 ∧ ¬ FitsInt 256 1 := by
  decide

/-- -128 fits one byte, and 128 does not. -/
theorem int2str_faithful_byte :
    (Faithful (-128) 1 ↔ (-128 : ℤ) < 256 ^ 1 ∨ 2 ^ (1 * 8 - 1) ≤ (-128 : ℤ) % 256 ^ 1) ∧
      ∀ s : LString, s ≠ [] → ∃ n, str2int s = .ok n ∧ int2str n s.length = .ok s :=
  int2str_faithful_iff (by decide) (-128)

/-! ## Floats -/

/-- `math.frexp`: `x = m * 2 ^ e` with `1/2 ≤ |m| < 1`, and `0, 0` for zero. -/
def frexp (x : ℚ) : ℚ × ℤ :=
  if x = 0 then (0, 0)
  else (x / 2 ^ (Int.log 2 |x| + 1), Int.log 2 |x| + 1)

/-- `math.ldexp`. -/
def ldexp (m : ℚ) (e : ℤ) : ℚ := m * 2 ^ e

/-- `string.char` of one code. -/
def char (n : ℤ) : LuaM UInt8 :=
  if 0 ≤ n ∧ n ≤ 255 then .ok (UInt8.ofNat n.toNat)
  else .error "bad argument to 'char' (invalid value)"

/-- The loop `while (0.5 + (man-1)*2^23) < 0` of `float2str`. A mantissa of
`frexp` is at least `1/2`, so one doubling ends it and a fuel of two is never
used up. -/
def mantissaLoop : ℕ → ℚ × ℤ → ℚ × ℤ
  | 0, me => me
  | fuel + 1, (man, exp2) =>
    if 1 / 2 + (man - 1) * 2 ^ 23 < 0 then mantissaLoop fuel (man * 2, exp2 - 1)
    else (man, exp2)

/-- `float2str(float)`: the four bytes of a binary32. The largest infinity has
its own branch; for the smallest one `frexp` gives an infinite mantissa, whose
bytes are NaN, and the mantissa assertion fails. -/
def float2str : LuaNumber → LuaM LString
  | .huge => .ok [127, 128, 0, 0]
  | .negHuge => .error "mantissa no cabe en longitud"
  | .finite float =>
    if float = 0 then .ok [0, 0, 0, 0]
    else do
      let signbit : ℤ := if float < 0 then 1 else 0
      let (man, exp2) := mantissaLoop 2 (frexp |float|)
      let e := exp2 + 127
      let M := ⌊(1 / 2 : ℚ) + (man - 1) * 2 ^ 23⌋
      let b1 := M % 256
      let b2 := M / 256 % 256
      let b3 := M / 256 / 256 % 256
      luaAssert (b3 < 128) "mantissa no cabe en longitud"
      let c4 ← char (e / 2 + 128 * signbit)
      let c3 ← char (b3 + 128 * (e % 2))
      let c2 ← char b2
      let c1 ← char b1
      return [c4, c3, c2, c1]

/-- `str2float32(x)`: bytes past the fourth are not looked at. -/
def str2float32 : LString → LuaM LuaNumber
  | b1 :: b2 :: b3 :: b4 :: _ =>
    let mantissa : ℕ := (b2.toNat % 128 * 256 + b3.toNat) * 256 + b4.toNat
    let sign : ℚ := if 127 < b1.toNat then -1 else 1
    let exponent : ℤ := b1.toNat % 128 * 2 + b2.toNat / 128
    if exponent = 0 then .ok (.finite 0)
    else .ok (.finite (ldexp ((ldexp mantissa (-23) + 1) * sign) (exponent - 127)))
  | _ => .error "attempt to perform arithmetic on a nil value"

/-- What a number becomes on its way through the float codec. -/
def Float32Of (x y : LuaNumber) : Prop :=
  ∃ s, float2str x = .ok s ∧ str2float32 s = .ok y

/-- A float field is four bytes. -/
theorem float2str_length {x : LuaNumber} {s : LString} (h : float2str x = .ok s) :
    s.length = 4 := by
  unfold float2str at h
  split at h
  · exact (Except.ok.inj h) ▸ rfl
  · exact absurd h (by simp)
  · split at h
    · exact (Except.ok.inj h) ▸ rfl
    · simp only [bind_ok, pure, Except.pure] at h
      obtain ⟨_, -, c4, -, c3, -, c2, -, c1, -, hs⟩ := h
      exact (Except.ok.inj hs) ▸ rfl

/-- Four bytes always decode. -/
theorem str2float32_ok {s : LString} (h : s.length = 4) : ∃ y, str2float32 s = .ok y := by
  match s, h with
  | [b1, b2, b3, b4], _ =>
    unfold str2float32
    dsimp only
    split
    · exact ⟨_, rfl⟩
    · exact ⟨_, rfl⟩

/-- A number that encodes has a decoded counterpart. -/
theorem float32Of_exists {x : LuaNumber} {s : LString} (h : float2str x = .ok s) :
    ∃ y, str2float32 s = .ok y ∧ Float32Of x y := by
  obtain ⟨y, hy⟩ := str2float32_ok (float2str_length h)
  exact ⟨y, hy, s, h, hy⟩

/-- A power of two up to `2 ^ 128` has mantissa one, so the codec keeps it. -/
theorem float32Of_two_pow {k : ℕ} (hk : k ≤ 128) :
    Float32Of (.finite (2 ^ k)) (.finite (2 ^ k)) := by
  have hne : (2 : ℚ) ^ k ≠ 0 := by positivity
  have hlog : Int.log 2 ((2 : ℚ) ^ k) = k := by
    have h := Int.log_zpow (R := ℚ) (b := 2) (by norm_num) (k : ℤ)
    rwa [zpow_natCast] at h
  have hfrexp : frexp ((2 : ℚ) ^ k) = (1 / 2, (k : ℤ) + 1) := by
    unfold frexp
    rw [if_neg hne, abs_of_pos (by positivity), hlog, zpow_add_one₀ (by norm_num), zpow_natCast]
    congr 1
    field_simp
  have hloop : mantissaLoop 2 (1 / 2, (k : ℤ) + 1) = (1, (k : ℤ)) := by
    norm_num [mantissaLoop]
  -- the exponent field is `k + 127`, split over the two top bytes
  have henc : float2str (.finite (2 ^ k)) = .ok
      [UInt8.ofNat ((k + 127) / 2), UInt8.ofNat (128 * ((k + 127) % 2)), 0, 0] := by
    have hpos : ¬ (2 : ℚ) ^ k < 0 := not_lt.mpr (by positivity)
    have hfloor : ⌊(1 / 2 : ℚ) + (1 - 1) * 2 ^ 23⌋ = 0 := by norm_num
    have hc4 : (((k : ℤ) + 127) / 2 + 128 * 0).toNat = (k + 127) / 2 := by omega
    have hc3 : (0 % 256 + 128 * (((k : ℤ) + 127) % 2)).toNat = 128 * ((k + 127) % 2) := by omega
    have h4 : char (((k : ℤ) + 127) / 2 + 128 * 0) = .ok (UInt8.ofNat ((k + 127) / 2)) := by
      unfold char
      rw [if_pos (by omega), hc4]
    have h3 : char (0 / 256 / 256 % 256 + 128 * (((k : ℤ) + 127) % 2))
        = .ok (UInt8.ofNat (128 * ((k + 127) % 2))) := by
      unfold char
      rw [if_pos (by omega), show (0 : ℤ) / 256 / 256 = 0 from rfl, hc3]
    have h0 : char 0 = .ok 0 := rfl
    unfold float2str
    dsimp only
    rw [if_neg hne, abs_of_pos (by positivity), hfrexp, hloop]
    dsimp only
    rw [if_neg hpos, hfloor, luaAssert_true (by norm_num), ok_bind, h4, ok_bind, h3, ok_bind]
    rfl
  refine ⟨_, henc, ?_⟩
  have hb1 : (UInt8.ofNat ((k + 127) / 2)).toNat = (k + 127) / 2 := by
    rw [UInt8.toNat_ofNat']
    omega
  have hb2 : (UInt8.ofNat (128 * ((k + 127) % 2))).toNat = 128 * ((k + 127) % 2) := by
    rw [UInt8.toNat_ofNat']
    omega
  have hexp : ((((k + 127) / 2 : ℕ) : ℤ) % 128 * 2 + ((128 * ((k + 127) % 2) : ℕ) : ℤ) / 128)
      = k + 127 := by
    omega
  have hman : ((128 * ((k + 127) % 2) % 128 * 256 + 0) * 256 + 0 : ℕ) = 0 := by omega
  have hsign : ¬ 127 < (k + 127) / 2 := by omega
  have hnz : ¬ (k : ℤ) + 127 = 0 := by omega
  have hval : ldexp ((ldexp ((0 : ℕ) : ℚ) (-23) + 1) * 1) ((k : ℤ) + 127 - 127) = 2 ^ k := by
    unfold ldexp
    rw [add_sub_cancel_right, zpow_natCast]
    ring
  unfold str2float32
  simp only [hb1, hb2, UInt8.toNat_zero, hman, if_neg hsign, hexp, if_neg hnz, hval]

example : float2str (.finite (-1 / 2)) = .ok [0xBF, 0, 0, 0] := by decide +kernel

end Lua2SC.Codec

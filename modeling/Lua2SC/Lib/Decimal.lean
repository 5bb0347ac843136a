import Lua2SC.Lib.Digits
import Lua2SC.Lib.Rounding

/-!
# Doubles as decimal texts

`general P` is what `sprintf("%.*g", P, x)` puts out for `x ≥ 0`: `P` significant digits,
with an exponent when it is below -4 or not below `P`, and no zeros at the end of a
fraction. `str2d` is the value of such a text, `tonum` the double nearest to it, which is
what `strtod` returns.

A text is put together from a `Numeral`, its digits before and behind the point and its
exponent; `str2d_text` reads every one of them back. With 17 digits the text of a double
is nearer to it than half the gap to its neighbours, so it is read back as the same double
(`tonum_general`).
-/

namespace Lua2SC.Decimal

open Lua2SC.Lua Lua2SC.Digits Lua2SC.Rounding

/-! ## Doubles -/

/-- binary64. -/
def binary64 : Fmt where
  base := 2
  digits := 53
  emin := -1074
  base_gt := Nat.one_lt_two

/-- A number that a double holds. -/
def IsDouble (q : ℚ) : Prop := binary64.Mem |q| ∧ |q| < 2 ^ 1024

/-- The double nearest to a number that is not negative. -/
def toDouble (q : ℚ) : LuaNumber :=
  if 2 ^ 1024 ≤ binary64.nearest q then .huge else .finite (binary64.nearest q)

/-! ## Numerals -/

/-- `isdigit`. -/
def isdigit (c : UInt8) : Bool := 48 ≤ c && c ≤ 57

/-- Digits as characters. -/
def chars (ds : List ℕ) : LString := ds.map fun d => UInt8.ofNat (48 + d)

/-- Characters as digits. -/
def digits (s : LString) : List ℕ := s.map fun c => c.toNat - 48

structure Numeral where
  int : List ℕ
  frac : List ℕ
  exp : Option ℤ

namespace Numeral

/-- The digits of an exponent, two at least. -/
def expDigits (a : ℕ) : List ℕ := if a < 10 then [0, a] else (Nat.digits 10 a).reverse

def expText : Option ℤ → LString
  | none => []
  | some X => 101 :: (if X < 0 then 45 else 43) :: chars (expDigits X.natAbs)

def fracText (frac : List ℕ) : LString := if frac = [] then [] else 46 :: chars frac

def text (d : Numeral) : LString := chars d.int ++ (fracText d.frac ++ expText d.exp)

def val (d : Numeral) : ℚ :=
  horner 10 0 (d.int ++ d.frac) * 10 ^ (d.exp.getD 0 - d.frac.length)

/-- Something before the point, and digits throughout. -/
def Ok (d : Numeral) : Prop := d.int ≠ [] ∧ ∀ x ∈ d.int ++ d.frac, x < 10

end Numeral

open Numeral

/-! ## Reading -/

/-- The exponent, if there is one, and nothing behind it. -/
def expOf : LString → Option ℤ
  | [] => some 0
  | c :: t =>
    if c = 101 ∨ c = 69 then
      let neg := t.head? = some 45
      let ds := if t.head? = some 45 ∨ t.head? = some 43 then t.tail else t
      if ds ≠ [] ∧ ds.all isdigit = true then
        let a : ℤ := horner 10 0 (digits ds)
        some (if neg then -a else a)
      else none
    else none

/-- Behind the digits before the point: the fraction and what follows it. -/
def fracOf : LString → LString × LString
  | 46 :: t => (t.takeWhile isdigit, t.dropWhile isdigit)
  | t => ([], t)

/-- `luaO_str2d` of a decimal numeral, as an exact number. -/
def str2d (s : LString) : Option ℚ :=
  let i := s.takeWhile isdigit
  let (f, t) := fracOf (s.dropWhile isdigit)
  if i ++ f = [] then none
  else (expOf t).map fun e : ℤ => (horner 10 0 (digits (i ++ f)) : ℚ) * 10 ^ (e - f.length)

/-- The double it stands for. -/
def tonum (s : LString) : Option LuaNumber := (str2d s).map toDouble

section

variable {ds is fs : List ℕ}

theorem isdigit_char {d : ℕ} (h : d < 10) : isdigit (UInt8.ofNat (48 + d)) = true := by
  interval_cases d <;> rfl

theorem isdigit_chars (h : ∀ d ∈ ds, d < 10) : ∀ c ∈ chars ds, isdigit c = true := by
  intro c hc
  obtain ⟨d, hd, rfl⟩ := List.mem_map.mp hc
  exact isdigit_char (h d hd)

theorem digits_chars (h : ∀ d ∈ ds, d < 10) : digits (chars ds) = ds := by
  unfold digits chars
  rw [List.map_map]
  refine (List.map_congr_left fun d hd => ?_).trans (List.map_id ds)
  have hlt := h d hd
  show (UInt8.ofNat (48 + d)).toNat - 48 = d
  rw [UInt8.toNat_ofNat_of_lt' (show 48 + d < 256 by omega)]
  omega

/-- Bytes of a kind up to one of another. -/
theorem span_append {p : UInt8 → Bool} {w t : LString} (hall : ∀ c ∈ w, p c = true)
    (ht : ∀ c, t.head? = some c → p c = false) :
    (w ++ t).takeWhile p = w ∧ (w ++ t).dropWhile p = t := by
  have hstop : t.takeWhile p = [] ∧ t.dropWhile p = t := by
    cases t with
    | nil => exact ⟨rfl, rfl⟩
    | cons c t =>
      have hc := ht c rfl
      exact ⟨List.takeWhile_cons_of_neg (by simp [hc]), List.dropWhile_cons_of_neg (by simp [hc])⟩
  constructor
  · rw [List.takeWhile_append_of_pos hall, hstop.1, List.append_nil]
  · rw [List.dropWhile_append_of_pos hall, hstop.2]

/-- Digits up to something that is none. -/
theorem span_chars (h : ∀ d ∈ ds, d < 10) {t : LString}
    (ht : ∀ c, t.head? = some c → isdigit c = false) :
    (chars ds ++ t).takeWhile isdigit = chars ds ∧ (chars ds ++ t).dropWhile isdigit = t :=
  span_append (isdigit_chars h) ht

theorem expDigits_lt (a : ℕ) : ∀ d ∈ expDigits a, d < 10 := by
  intro d hd
  unfold expDigits at hd
  split at hd
  next h =>
    simp only [List.mem_cons, List.not_mem_nil, or_false] at hd
    omega
  next => exact Nat.digits_lt_base (by norm_num) (List.mem_reverse.mp hd)

theorem horner_expDigits (a : ℕ) : horner 10 0 (expDigits a) = a := by
  unfold expDigits
  split
  next => simp [horner]
  next =>
    have hofDigits := Nat.ofDigits_digits 10 a
    rw [Nat.ofDigits_eq_foldr] at hofDigits
    unfold horner
    rw [List.foldl_reverse]
    refine Eq.trans ?_ hofDigits
    congr 1
    funext d n
    simp only [Nat.cast_id]
    ring

theorem expDigits_ne_nil (a : ℕ) : expDigits a ≠ [] := by
  unfold expDigits
  split
  next => exact List.cons_ne_nil _ _
  next h =>
    rw [ne_eq, List.reverse_eq_nil_iff, Nat.digits_eq_nil_iff_eq_zero]
    omega

theorem expOf_expText (e : Option ℤ) : expOf (expText e) = some (e.getD 0) := by
  cases e with
  | none => rfl
  | some X =>
    have hne : chars (expDigits X.natAbs) ≠ [] := by
      rw [chars, ne_eq, List.map_eq_nil_iff]
      exact expDigits_ne_nil _
    have hall : (chars (expDigits X.natAbs)).all isdigit = true :=
      List.all_eq_true.mpr (isdigit_chars (expDigits_lt _))
    have hval : horner 10 0 (digits (chars (expDigits X.natAbs))) = X.natAbs := by
      rw [digits_chars (expDigits_lt _), horner_expDigits]
    unfold expText expOf
    by_cases hX : X < 0
    · simp only [hX, if_true, List.head?_cons, List.tail_cons, true_or, ne_eq, hne, not_false_iff,
        hall, and_self, hval, Option.getD_some]
      congr 1
      omega
    · simp only [hX, if_false, if_true, List.head?_cons, List.tail_cons, true_or, or_true, ne_eq,
        hne, not_false_iff, hall, and_self, hval, Option.getD_some, Option.some.injEq]
      rw [if_neg (by decide)]
      omega

theorem head_expText {e : Option ℤ} : ∀ c, (expText e).head? = some c → c = 101 := by
  intro c hc
  cases e with
  | none => cases hc
  | some X => exact (Option.some.inj hc).symm

/-- **Every numeral is read back.** -/
theorem str2d_text {d : Numeral} (h : d.Ok) : str2d d.text = some d.val := by
  obtain ⟨hne, hlt⟩ := h
  have hint : ∀ x ∈ d.int, x < 10 := fun x hx => hlt x (List.mem_append_left _ hx)
  have hfrac : ∀ x ∈ d.frac, x < 10 := fun x hx => hlt x (List.mem_append_right _ hx)
  have hexp : ∀ c, (expText d.exp).head? = some c → isdigit c = false := by
    intro c hc
    rw [head_expText c hc]
    rfl
  have hrest : ∀ c, (fracText d.frac ++ expText d.exp).head? = some c → isdigit c = false := by
    intro c hc
    unfold fracText at hc
    split at hc
    next => exact hexp c hc
    next => rw [← Option.some.inj hc]; rfl
  obtain ⟨htake, hdrop⟩ := span_chars hint hrest
  have hpart : fracOf (fracText d.frac ++ expText d.exp) = (chars d.frac, expText d.exp) := by
    unfold fracText
    split
    next hnil =>
      rw [hnil]
      show fracOf (expText d.exp) = ([], expText d.exp)
      cases d.exp with
      | none => rfl
      | some X => rfl
    next =>
      obtain ⟨htake', hdrop'⟩ := span_chars hfrac hexp
      show ((chars d.frac ++ expText d.exp).takeWhile isdigit,
        (chars d.frac ++ expText d.exp).dropWhile isdigit) = _
      rw [htake', hdrop']
  have hchars : chars d.int ++ chars d.frac = chars (d.int ++ d.frac) := List.map_append.symm
  have hnil : chars (d.int ++ d.frac) ≠ [] := by
    rw [chars, ne_eq, List.map_eq_nil_iff]
    exact List.append_ne_nil_of_left_ne_nil hne _
  unfold str2d text
  rw [htake, hdrop, hpart]
  dsimp only
  rw [hchars, if_neg hnil, expOf_expText, digits_chars hlt, chars, List.length_map]
  rfl

end

/-! ## Writing -/

/-- `P` significant digits, and the power of ten of the first. -/
def scientific (P : ℕ) (x : ℚ) : ℕ × ℤ :=
  let X := Int.log 10 x
  let n := (roundEven (x / 10 ^ (X - P + 1))).toNat
  if n = 10 ^ P then (10 ^ (P - 1), X + 1) else (n, X)

/-- No zeros at the end of a fraction. -/
def strip (frac : List ℕ) : List ℕ := frac.rdropWhile (· = 0)

/-- What `%.*g` writes. -/
def numeral (P : ℕ) (x : ℚ) : Numeral :=
  if x = 0 then ⟨[0], [], none⟩
  else
    let (n, X) := scientific P x
    let ds := (leDigits 10 P n).reverse
    if X < -4 ∨ P ≤ X then ⟨ds.take 1, strip (ds.drop 1), some X⟩
    else if 0 ≤ X then ⟨ds.take (X.toNat + 1), strip (ds.drop (X.toNat + 1)), none⟩
    else ⟨[0], strip (List.replicate (-X - 1).toNat 0 ++ ds), none⟩

/-- `sprintf("%.*g", P, x)`. -/
def general (P : ℕ) (x : ℚ) : LString := (numeral P x).text

section

variable {P : ℕ} {x : ℚ}

/-- The digits stay within half a unit of the last one. -/
theorem scientific_spec (hP : 1 ≤ P) (hx : 0 < x) : (scientific P x).1 < 10 ^ P ∧
    |((scientific P x).1 : ℚ) * 10 ^ ((scientific P x).2 - P + 1) - x| ≤ x / 10 ^ (P - 1) / 2 := by
  have hlo := Int.zpow_log_le_self (b := 10) (by norm_num) hx
  have hhi := Int.lt_zpow_succ_log_self (b := 10) (by norm_num) x
  push_cast at hlo hhi
  have h10 : (10 : ℚ) ≠ 0 := by norm_num
  set X := Int.log 10 x with hX
  have hu : (0 : ℚ) < 10 ^ (X - P + 1) := zpow_pos (by norm_num) _
  have hunit : (10 : ℚ) ^ (X - P + 1) = 10 ^ X / 10 ^ (P - 1) := by
    rw [← zpow_natCast, ← zpow_sub₀ h10]
    congr 1
    omega
  have hnear := abs_roundEven_sub (x / 10 ^ (X - P + 1))
  set r := roundEven (x / 10 ^ (X - P + 1)) with hr
  have hquot : 0 < x / (10 : ℚ) ^ (X - P + 1) := div_pos hx hu
  have hquot' : x / (10 : ℚ) ^ (X - P + 1) < 10 ^ P := by
    rw [div_lt_iff₀ hu]
    calc x < 10 ^ (X + 1) := hhi
      _ = 10 ^ P * 10 ^ (X - P + 1) := by
        rw [← zpow_natCast, ← zpow_add₀ h10]
        congr 1
        omega
  obtain ⟨hbelow, habove⟩ := abs_le.mp hnear
  have hr0 : 0 ≤ r := by
    have h : (-1 : ℚ) < r := by linarith
    have h' : -1 < r := by exact_mod_cast h
    omega
  have hr1 : r ≤ 10 ^ P := by
    have h : (r : ℚ) < 10 ^ P + 1 := by linarith
    have h' : r < 10 ^ P + 1 := by exact_mod_cast h
    omega
  obtain ⟨n, hn⟩ := Int.eq_ofNat_of_zero_le hr0
  have herr : |(n : ℚ) * 10 ^ (X - P + 1) - x| ≤ x / 10 ^ (P - 1) / 2 := by
    have hsplit : (n : ℚ) * 10 ^ (X - P + 1) - x =
        (r - x / 10 ^ (X - P + 1)) * 10 ^ (X - P + 1) := by
      rw [sub_mul, div_mul_cancel₀ _ hu.ne', hn]
      rfl
    rw [hsplit, abs_mul, abs_of_pos hu]
    have hle : (10 : ℚ) ^ (X - P + 1) ≤ x / 10 ^ (P - 1) := by
      rw [hunit]
      exact div_le_div_of_nonneg_right hlo (by positivity)
    calc |(r : ℚ) - x / 10 ^ (X - P + 1)| * 10 ^ (X - P + 1)
        ≤ 1 / 2 * 10 ^ (X - P + 1) := mul_le_mul_of_nonneg_right hnear hu.le
      _ ≤ x / 10 ^ (P - 1) / 2 := by linarith
  have hsci : scientific P x = if n = 10 ^ P then (10 ^ (P - 1), X + 1) else (n, X) := by
    unfold scientific
    dsimp only
    rw [← hX, ← hr, hn]
    rfl
  rw [hsci]
  split
  next htop =>
    -- one more digit: the same number, written with the next power of ten
    refine ⟨Nat.pow_lt_pow_right (by norm_num) (by omega), ?_⟩
    have hsame : ((10 ^ (P - 1) : ℕ) : ℚ) * 10 ^ (X + 1 - P + 1) = n * 10 ^ (X - P + 1) := by
      rw [htop]
      push_cast
      rw [← zpow_natCast, ← zpow_natCast, ← zpow_add₀ h10, ← zpow_add₀ h10]
      congr 1
      omega
    dsimp only
    rw [hsame]
    exact herr
  next htop =>
    refine ⟨?_, herr⟩
    have hle : n ≤ 10 ^ P := by
      rw [hn] at hr1
      exact_mod_cast hr1
    exact lt_of_le_of_ne hle htop

theorem strip_lt {ds : List ℕ} (h : ∀ d ∈ ds, d < 10) : ∀ d ∈ strip ds, d < 10 :=
  fun d hd => h d ((List.rdropWhile_prefix _ _).subset hd)

/-- The zeros at the end count for nothing. -/
theorem val_strip (i f : List ℕ) (e : Option ℤ) :
    (Numeral.mk i (strip f) e).val = (Numeral.mk i f e).val := by
  induction f using List.reverseRecOn with
  | nil => rfl
  | append_singleton f d ih =>
    unfold strip
    by_cases hd : d = 0
    · rw [List.rdropWhile_concat_pos _ _ _ (by simpa using hd)]
      refine ih.trans ?_
      subst hd
      unfold val
      dsimp only
      have hhorner : horner 10 0 (i ++ (f ++ [0])) = horner 10 0 (i ++ f) * 10 := by
        rw [← List.append_assoc, horner_append]
        rfl
      rw [hhorner, List.length_append, List.length_singleton]
      push_cast
      rw [mul_assoc]
      congr 1
      rw [← zpow_one_add₀ (by norm_num)]
      congr 1
      omega
    · rw [List.rdropWhile_concat_neg _ _ _ (by simpa using hd)]

/-- **What is written** are the digits of the number. -/
theorem numeral_spec (hP : 1 ≤ P) (hx : 0 < x) : (numeral P x).Ok ∧
    (numeral P x).val = ((scientific P x).1 : ℚ) * 10 ^ ((scientific P x).2 - P + 1) := by
  have hlt := (scientific_spec hP hx).1
  unfold numeral
  rw [if_neg hx.ne']
  generalize scientific P x = nX at hlt ⊢
  obtain ⟨n, X⟩ := nX
  dsimp only at hlt ⊢
  have hds : ∀ d ∈ (leDigits 10 P n).reverse, d < 10 :=
    fun d hd => leDigits_lt (by norm_num) P n d (List.mem_reverse.mp hd)
  have hval := horner_leDigits_of_lt hlt
  have hlen : (leDigits 10 P n).reverse.length = P := by
    rw [List.length_reverse, leDigits_length]
  generalize (leDigits 10 P n).reverse = ds at hds hval hlen ⊢
  -- digits cut in two places in front and behind the point
  have hcut : ∀ k, 1 ≤ k → ∀ e, (Numeral.mk (ds.take k) (strip (ds.drop k)) e).Ok ∧
      (Numeral.mk (ds.take k) (strip (ds.drop k)) e).val =
        (n : ℚ) * 10 ^ (e.getD 0 - (P - k : ℕ)) := by
    intro k hk e
    refine ⟨⟨?_, ?_⟩, ?_⟩
    · show ds.take k ≠ []
      rw [ne_eq, ← List.length_eq_zero_iff, List.length_take]
      omega
    · intro d hd
      rcases List.mem_append.mp hd with hd | hd
      · exact hds d (List.mem_of_mem_take hd)
      · exact strip_lt (fun d hd => hds d (List.mem_of_mem_drop hd)) d hd
    · rw [val_strip]
      unfold val
      dsimp only
      rw [List.take_append_drop, hval, List.length_drop, hlen]
  split
  next =>
    obtain ⟨hok, hv⟩ := hcut 1 le_rfl (some X)
    refine ⟨hok, hv.trans ?_⟩
    congr 2
    rw [Option.getD_some]
    omega
  next hX =>
    push Not at hX
    split
    next h0 =>
      obtain ⟨hok, hv⟩ := hcut (X.toNat + 1) (Nat.le_add_left _ _) none
      refine ⟨hok, hv.trans ?_⟩
      congr 2
      rw [Option.getD_none]
      omega
    next h0 =>
      have hzeros : ∀ d ∈ List.replicate (-X - 1).toNat 0 ++ ds, d < 10 := by
        intro d hd
        rcases List.mem_append.mp hd with hd | hd
        · rw [List.eq_of_mem_replicate hd]
          norm_num
        · exact hds d hd
      refine ⟨⟨List.cons_ne_nil _ _, fun d hd => ?_⟩, ?_⟩
      · rcases List.mem_cons.mp hd with rfl | hd
        · norm_num
        · exact strip_lt hzeros d hd
      · rw [val_strip]
        unfold val
        dsimp only
        have hhorner : horner 10 0 ([0] ++ (List.replicate (-X - 1).toNat 0 ++ ds)) = n := by
          rw [← hval, ← List.append_assoc, horner_append]
          congr 1
          generalize (-X - 1).toNat = k
          rw [horner_append]
          show horner 10 0 (List.replicate k 0) = 0
          induction k with
          | zero => rfl
          | succ k ih => exact ih
        rw [hhorner, List.length_append, List.length_replicate, hlen, Option.getD_none]
        congr 2
        omega

theorem numeral_ok (hP : 1 ≤ P) (h0 : 0 ≤ x) : (numeral P x).Ok := by
  rcases h0.lt_or_eq with hpos | rfl
  · exact (numeral_spec hP hpos).1
  · rw [numeral, if_pos rfl]
    refine ⟨List.cons_ne_nil _ _, fun d hd => ?_⟩
    rw [List.mem_singleton.mp hd]
    norm_num

/-- **17 digits are enough** for a double. -/
theorem tonum_general (hx : IsDouble x) (h0 : 0 ≤ x) : tonum (general 17 x) = some (.finite x) := by
  obtain ⟨hmem, htop⟩ := hx
  rw [abs_of_nonneg h0] at hmem htop
  rcases h0.lt_or_eq with hpos | rfl
  · obtain ⟨hok, hval⟩ := numeral_spec (P := 17) (by norm_num) hpos
    obtain ⟨-, herr⟩ := scientific_spec (P := 17) (by norm_num) hpos
    rw [← hval] at herr
    have hsmall : x / 10 ^ (17 - 1) / 2 < x / (binary64.base : ℚ) ^ binary64.digits / 2 := by
      have hlt : ((2 : ℕ) : ℚ) ^ 53 < 10 ^ (17 - 1) := by norm_num
      have hdiv := div_lt_div_of_pos_left hpos (by positivity) hlt
      exact div_lt_div_of_pos_right hdiv (by norm_num)
    have hnear := herr.trans_lt hsmall
    have hvpos : 0 < (numeral 17 x).val := by
      have hle : x / 10 ^ (17 - 1) / 2 < x := by
        rw [div_div]
        exact div_lt_self hpos (by norm_num)
      have hgt := (abs_le.mp herr).1
      linarith
    have hround := Fmt.nearest_eq_of_near hmem hpos hvpos hnear
    unfold tonum general
    rw [str2d_text hok]
    show some (toDouble (numeral 17 x).val) = _
    unfold toDouble
    rw [hround, if_neg (not_le.mpr htop)]
  · show some (toDouble ((Numeral.mk [0] [] none).val)) = _
    have hval : (Numeral.mk [0] [] none).val = 0 := by simp [val, horner]
    have hnearest : binary64.nearest 0 = 0 := by simp [Fmt.nearest, roundEven]
    unfold toDouble
    rw [hval, hnearest, if_neg (by norm_num)]

end

end Lua2SC.Decimal

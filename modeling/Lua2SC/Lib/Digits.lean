import Lua2SC.Lib.Lua

/-!
# Fixed-width positional numerals

`leDigits b len n` is the loop every integer encoder runs: `len` times, put
out `n % b` and go on with `n / b`. `horner b acc` is the loop every decoder
runs: fold the digits, most significant first. `horner_leDigits` is the one
fact the codecs need: reading the reversed digits back gives `n` modulo
`b ^ len`, so a number that fits its field survives.
-/

namespace Lua2SC.Digits

/-- The `len` lowest digits of `n` in base `b`, least significant first. -/
def leDigits (b : ℕ) : ℕ → ℕ → List ℕ
  | 0, _ => []
  | len + 1, n => n % b :: leDigits b len (n / b)

/-- Fold digits, most significant first, onto `acc`. -/
def horner (b acc : ℕ) (ds : List ℕ) : ℕ := ds.foldl (fun n d => n * b + d) acc

@[simp] theorem leDigits_length (b : ℕ) : ∀ len n : ℕ, (leDigits b len n).length = len
  | 0, _ => rfl
  | len + 1, n => by rw [leDigits, List.length_cons, leDigits_length b len]

theorem leDigits_lt {b : ℕ} (hb : 0 < b) :
    ∀ (len n : ℕ), ∀ d ∈ leDigits b len n, d < b := by
  intro len
  induction len with
  | zero => intro n d hd; simp [leDigits] at hd
  | succ len ih =>
    intro n d hd
    rcases List.mem_cons.mp hd with rfl | hd'
    · exact Nat.mod_lt _ hb
    · exact ih (n / b) d hd'

/-- The digits split off at the top: `len + 1` digits are the `len` lowest
and then the digit of weight `b ^ len`. -/
theorem leDigits_succ_top (b : ℕ) :
    ∀ len n : ℕ, leDigits b (len + 1) n = leDigits b len n ++ [n / b ^ len % b] := by
  intro len
  induction len with
  | zero => intro n; simp [leDigits]
  | succ len ih =>
    intro n
    rw [leDigits, ih (n / b)]
    rw [leDigits, List.cons_append, Nat.div_div_eq_div_mul, ← Nat.pow_succ']

theorem horner_append (b acc : ℕ) (xs ys : List ℕ) :
    horner b acc (xs ++ ys) = horner b (horner b acc xs) ys := by
  simp [horner, List.foldl_append]

/-- Reading the digits back, most significant first. -/
theorem horner_leDigits (b : ℕ) :
    ∀ (len acc n : ℕ),
      horner b acc (leDigits b len n).reverse = acc * b ^ len + n % b ^ len := by
  intro len
  induction len with
  | zero => intro acc n; simp [leDigits, horner, Nat.mod_one]
  | succ len ih =>
    intro acc n
    rw [leDigits, List.reverse_cons, horner_append, ih acc (n / b)]
    have hmod : n % b ^ (len + 1) = n % b + b * (n / b % b ^ len) := by
      rw [Nat.pow_succ', Nat.mod_mul]
    simp only [horner, List.foldl_cons, List.foldl_nil]
    rw [hmod, Nat.pow_succ]
    ring

/-- A number that fits its field is read back whole. -/
theorem horner_leDigits_of_lt {b len n : ℕ} (h : n < b ^ len) :
    horner b 0 (leDigits b len n).reverse = n := by
  rw [horner_leDigits, Nat.zero_mul, Nat.zero_add, Nat.mod_eq_of_lt h]

/-- The digits do not see what lies above them. -/
theorem leDigits_mod (b : ℕ) : ∀ len n : ℕ, leDigits b len (n % b ^ len) = leDigits b len n := by
  intro len
  induction len with
  | zero => intro n; rfl
  | succ len ih =>
    intro n
    have hlow : n % b ^ (len + 1) % b = n % b := by
      rw [Nat.pow_succ', Nat.mod_mul_right_mod]
    have hhigh : n % b ^ (len + 1) / b = n / b % b ^ len := by
      rw [Nat.pow_succ', Nat.mod_mul_right_div_self]
    rw [leDigits, leDigits, hlow, hhigh, ih]

/-- The digits of a number that has been read come back in reverse. -/
theorem leDigits_horner {b : ℕ} (acc : ℕ) {ds : List ℕ} (hds : ∀ d ∈ ds, d < b) :
    leDigits b ds.length (horner b acc ds) = ds.reverse := by
  induction ds using List.reverseRecOn with
  | nil => rfl
  | append_singleton ds d ih =>
    have hd : d < b := hds d (by simp)
    have hrest : ∀ x ∈ ds, x < b := fun x hx => hds x (List.mem_append_left _ hx)
    have hread : horner b acc (ds ++ [d]) = horner b acc ds * b + d := by
      rw [horner_append]
      rfl
    have hmod : (horner b acc ds * b + d) % b = d := by
      rw [Nat.mul_add_mod_self_right, Nat.mod_eq_of_lt hd]
    have hdiv : (horner b acc ds * b + d) / b = horner b acc ds := by
      rw [Nat.mul_comm, Nat.mul_add_div (by omega), Nat.div_eq_of_lt hd, Nat.add_zero]
    rw [List.length_append, List.length_singleton, leDigits, hread, hmod, hdiv, ih hrest,
      List.reverse_append]
    rfl

/-- What is read is less than one unit above the digits. -/
theorem horner_lt {b : ℕ} (acc : ℕ) {ds : List ℕ} (hds : ∀ d ∈ ds, d < b) :
    horner b acc ds < (acc + 1) * b ^ ds.length ∧ acc * b ^ ds.length ≤ horner b acc ds := by
  induction ds generalizing acc with
  | nil => simp [horner]
  | cons d ds ih =>
    have hd : d < b := hds d List.mem_cons_self
    obtain ⟨hlt, hle⟩ := ih (acc * b + d) fun x hx => hds x (List.mem_cons_of_mem _ hx)
    have hcons : horner b acc (d :: ds) = horner b (acc * b + d) ds := rfl
    rw [hcons, List.length_cons, Nat.pow_succ', ← Nat.mul_assoc, ← Nat.mul_assoc]
    constructor
    · refine hlt.trans_le (Nat.mul_le_mul_right _ ?_)
      rw [Nat.add_mul]
      omega
    · exact (Nat.mul_le_mul_right _ (Nat.le_add_right _ _)).trans hle

end Lua2SC.Digits

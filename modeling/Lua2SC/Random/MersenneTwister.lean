import Lua2SC.Lib.Recurrence
import Mathlib.Tactic.Positivity

/-!
# `random.c`: the Mersenne Twister

The generator keeps `N` words. When they are used up it replaces them in place, in three loops, and
then hands them out one after another, tempered. `unsigned long` has 32 bits on one system and 64 on
another.

Whatever its size, and whatever was in memory before, the numbers that come after a seed are the
tempered words of one sequence with two taps, from the `N`-th on (`genrandInt32_stream`), which
depends on the seed modulo `2 ^ 32` only. Tempering loses nothing, so any `N` numbers after one
another determine all that follow.
-/

namespace Lua2SC.Random

open Lua2SC.Recurrence

/-! ## `unsigned long` -/

/-- The type `unsigned long`: how many bits it has. -/
structure ULong where
  bits : ℕ
  le : 32 ≤ bits

namespace ULong

variable (u : ULong)

/-- A value that is cast to it. -/
def wrap (n : ℕ) : ℕ := n % 2 ^ u.bits

/-- A `long` that is cast to it. -/
def ofLong (n : ℤ) : ℕ := (n % 2 ^ u.bits).toNat

def add (a b : ℕ) : ℕ := u.wrap (a + b)

def mul (a b : ℕ) : ℕ := u.wrap (a * b)

def shiftLeft (a k : ℕ) : ℕ := u.wrap (a <<< k)

end ULong

/-! ## The program -/

/-- Period parameters. -/
abbrev N : ℕ := 624
abbrev M : ℕ := 397
abbrev MATRIX_A : ℕ := 0x9908b0df
abbrev UPPER_MASK : ℕ := 0x80000000
abbrev LOWER_MASK : ℕ := 0x7fffffff

theorem sizes : N = 624 ∧ M = 397 := ⟨rfl, rfl⟩

/-- The first index. -/
def first : Fin N := ⟨0, by decide⟩

/-- The words and the index of the next one. -/
structure MT where
  v : Fin N → ℕ
  i : ℕ

variable (u : ULong)

/-- The word after `prev`, at `i`. -/
def seedWord (prev i : ℕ) : ℕ :=
  u.add (u.mul 1812433253 (prev ^^^ (prev >>> 30))) i &&& 0xffffffff

/-- The loop of `init_genrand` writes the word after `j`. -/
def seedStep (v : Fin N → ℕ) (j : Fin (N - 1)) : Fin N → ℕ :=
  Function.update v ⟨j + 1, by omega⟩ (seedWord u (v ⟨j, by omega⟩) (j + 1))

def seedWords (v : Fin N → ℕ) (s : ℕ) : Fin N → ℕ :=
  Fin.foldl (N - 1) (seedStep u) (Function.update v first (s &&& 0xffffffff))

/-- `init_genrand`. -/
def initGenrand (o : MT) (s : ℕ) : MT := ⟨seedWords u o.v s, N⟩

/-- `mag01`. -/
def mag01 (x : ℕ) : ℕ := if x = 0 then 0 else MATRIX_A

/-- The word that is written, of `mt[kk]`, `mt[kk+1]` and `mt[kk+M]`. -/
def twist (a b c : ℕ) : ℕ :=
  let y := (a &&& UPPER_MASK) ||| (b &&& LOWER_MASK)
  c ^^^ (y >>> 1) ^^^ mag01 (y &&& 1)

/-- The words whose tap is behind them in the array. -/
def generateFirst (v : Fin N → ℕ) : Fin N → ℕ :=
  Fin.foldl (N - M) (fun v kk =>
    Function.update v ⟨kk, by omega⟩ (twist (v ⟨kk, by omega⟩)
      (v ⟨kk + 1, by have := sizes; omega⟩) (v ⟨kk + M, by have := sizes; omega⟩))) v

/-- The words whose tap is in front of them. -/
def generateSecond (v : Fin N → ℕ) : Fin N → ℕ :=
  Fin.foldl (M - 1) (fun v j =>
    let kk := N - M + j
    Function.update v ⟨kk, by have := sizes; omega⟩ (twist (v ⟨kk, by have := sizes; omega⟩)
      (v ⟨kk + 1, by have := sizes; omega⟩) (v ⟨kk + M - N, by have := sizes; omega⟩))) v

/-- Generate `N` words at one time. -/
def generate (v : Fin N → ℕ) : Fin N → ℕ :=
  let v := generateSecond (generateFirst v)
  Function.update v ⟨N - 1, by decide⟩
    (twist (v ⟨N - 1, by decide⟩) (v first) (v ⟨M - 1, by decide⟩))

/-- Tempering. -/
def temper (y : ℕ) : ℕ :=
  let y := y ^^^ (y >>> 11)
  let y := y ^^^ (u.shiftLeft y 7 &&& 0x9d2c5680)
  let y := y ^^^ (u.shiftLeft y 15 &&& 0xefc60000)
  y ^^^ (y >>> 18)

/-- `genrand_int32`. -/
def genrandInt32 (o : MT) : ℕ × MT :=
  if h : N ≤ o.i then
    -- if init_genrand() has not been called, a default initial seed is used
    let o := if o.i = N + 1 then initGenrand u o 5489 else o
    let v := generate o.v
    (temper u (v first), ⟨v, 1⟩)
  else (temper u (o.v ⟨o.i, by omega⟩), ⟨o.v, o.i + 1⟩)

/-- The userdata that `random.new(seed)` leaves, in memory that holds `o`. -/
def lnew (o : MT) (seed : ℤ) : MT := initGenrand u o (u.ofLong seed)

/-- The generator after `n` numbers. -/
def after : ℕ → MT → MT
  | 0, o => o
  | n + 1, o => (genrandInt32 u (after n o)).2

/-- The number that comes after `n` others. -/
def number (n : ℕ) (o : MT) : ℕ := (genrandInt32 u (after u n o)).1

/-! ## The sequence -/

/-- The words that a seed gives. -/
def seeded (s : ℕ) : ℕ → ℕ
  | 0 => s % 2 ^ 32
  | k + 1 => (1812433253 * (seeded s k ^^^ (seeded s k >>> 30)) + (k + 1)) % 2 ^ 32

/-- The recurrence. -/
def mt19937 : Taps ℕ := ⟨N, M, by decide, by decide, twist⟩

/-- Tempering, of 32 bits. -/
def tempered (y : ℕ) : ℕ :=
  xorShiftRight 18 (xorShiftLeft 15 0xefc60000 (xorShiftLeft 7 0x9d2c5680 (xorShiftRight 11 y)))

/-- The word at `k`, after a seed. -/
def word (seed : ℤ) (k : ℕ) : ℕ := mt19937.seq (seeded (seed % 2 ^ 32).toNat) k

/-! ## The block -/

section Block

variable {x : ℕ → ℕ} {b : ℕ} {v : Fin N → ℕ}

theorem partial_generateFirst (h : mt19937.Window x b v) :
    mt19937.Partial x b (N - M) (generateFirst v) := by
  have hsizes := sizes
  refine foldl_induct h.begin fun kk v hv => hv.step rfl ?_ ?_
  · exact (Nat.mod_eq_of_lt (show kk + 1 < N by omega)).symm
  · exact (Nat.mod_eq_of_lt (show kk + M < N by omega)).symm

theorem partial_generateSecond (h : mt19937.Partial x b (N - M) v) :
    mt19937.Partial x b (N - 1) (generateSecond v) := by
  have hsizes := sizes
  refine foldl_induct (P := fun j => mt19937.Partial x b (N - M + j)) h fun j v hv => ?_
  refine hv.step rfl ?_ ?_
  · exact (Nat.mod_eq_of_lt (show N - M + j + 1 < N by omega)).symm
  · show N - M + j + M - N = (N - M + j + M) % N
    rw [Nat.mod_eq_sub_mod (by omega), Nat.mod_eq_of_lt (by omega)]

/-- The block that follows. -/
theorem window_generate (h : mt19937.Window x b v) :
    mt19937.Window x (b + N) (generate v) := by
  have hrest := partial_generateSecond (partial_generateFirst h)
  exact Taps.Partial.done (hrest.step rfl rfl rfl)

end Block

/-! ## The words -/

theorem seeded_lt (s k : ℕ) : seeded s k < 2 ^ 32 := by
  cases k with
  | zero => exact Nat.mod_lt _ (by decide)
  | succ k => exact Nat.mod_lt _ (by decide)

theorem mag01_lt (x : ℕ) : mag01 x < 2 ^ 32 := by
  unfold mag01
  split
  · decide
  · decide

theorem twist_lt {a b c : ℕ} (hc : c < 2 ^ 32) : twist a b c < 2 ^ 32 := by
  have hy : (a &&& UPPER_MASK) ||| (b &&& LOWER_MASK) < 2 ^ 32 :=
    Nat.or_lt_two_pow (Nat.and_lt_two_pow a (by decide)) (Nat.and_lt_two_pow b (by decide))
  have hshift := Nat.lt_of_le_of_lt (Nat.shiftRight_le _ 1) hy
  exact Nat.xor_lt_two_pow (Nat.xor_lt_two_pow hc hshift) (mag01_lt _)

theorem word_lt (seed : ℤ) (k : ℕ) : word seed k < 2 ^ 32 :=
  mt19937.seq_induct (P := fun a => a < 2 ^ 32) (fun k _ => seeded_lt _ k)
    (fun _ _ _ _ _ hc => twist_lt hc) k

theorem tempered_lt {y : ℕ} (hy : y < 2 ^ 32) : tempered y < 2 ^ 32 := by
  have hright : ∀ {k z : ℕ}, z < 2 ^ 32 → xorShiftRight k z < 2 ^ 32 := fun hz =>
    Nat.xor_lt_two_pow hz (Nat.lt_of_le_of_lt (Nat.shiftRight_le _ _) hz)
  have hleft : ∀ {k m z : ℕ}, m < 2 ^ 32 → z < 2 ^ 32 → xorShiftLeft k m z < 2 ^ 32 :=
    fun hm hz => Nat.xor_lt_two_pow hz (Nat.and_lt_two_pow _ hm)
  exact hright (hleft (by decide) (hleft (by decide) (hright hy)))

/-- Tempering loses nothing. -/
theorem tempered_injective : Function.Injective tempered :=
  ((xorShiftRight_injective (by decide)).comp (xorShiftLeft_injective (by decide))).comp
    ((xorShiftLeft_injective (by decide)).comp (xorShiftRight_injective (by decide)))


/-! ## The size of `unsigned long` -/

theorem and_ones (n : ℕ) : n &&& 0xffffffff = n % 2 ^ 32 := Nat.and_two_pow_sub_one_eq_mod n 32

variable {u}

/-- What is cut off is above 32 bits. -/
theorem wrap_mod (n : ℕ) : u.wrap n % 2 ^ 32 = n % 2 ^ 32 :=
  Nat.mod_mod_of_dvd n (Nat.pow_dvd_pow 2 u.le)

theorem wrap_and {m : ℕ} (hm : m < 2 ^ 32) (n : ℕ) : u.wrap n &&& m = n &&& m := by
  have hmask : m % 2 ^ u.bits = m :=
    Nat.mod_eq_of_lt (Nat.lt_of_lt_of_le hm (Nat.pow_le_pow_right (by decide) u.le))
  calc u.wrap n &&& m = (n % 2 ^ u.bits) &&& (m % 2 ^ u.bits) := by rw [hmask]; rfl
    _ = (n &&& m) % 2 ^ u.bits := (Nat.and_mod_two_pow ..).symm
    _ = n &&& m := by
      refine Nat.mod_eq_of_lt (Nat.lt_of_le_of_lt Nat.and_le_right ?_)
      rw [← hmask]
      exact Nat.mod_lt _ (by positivity)

theorem temper_eq (y : ℕ) : temper u y = tempered y := by
  unfold temper tempered ULong.shiftLeft
  dsimp only
  rw [wrap_and (by decide), wrap_and (by decide)]
  rfl

theorem seedWord_eq (prev i : ℕ) :
    seedWord u prev i = (1812433253 * (prev ^^^ (prev >>> 30)) + i) % 2 ^ 32 := by
  unfold seedWord ULong.add ULong.mul
  rw [and_ones, wrap_mod, Nat.add_mod, wrap_mod, ← Nat.add_mod]

theorem ofLong_mod (seed : ℤ) : u.ofLong seed % 2 ^ 32 = (seed % 2 ^ 32).toNat := by
  have hcast : (u.ofLong seed : ℤ) = seed % 2 ^ u.bits :=
    Int.toNat_of_nonneg (Int.emod_nonneg seed (by positivity))
  have hdvd : (2 ^ 32 : ℤ) ∣ 2 ^ u.bits := pow_dvd_pow 2 u.le
  have hmod : ((u.ofLong seed % 2 ^ 32 : ℕ) : ℤ) = ((seed % 2 ^ 32).toNat : ℤ) := by
    rw [Int.toNat_of_nonneg (Int.emod_nonneg seed (by decide)), Int.natCast_mod, hcast]
    exact Int.emod_emod_of_dvd seed hdvd
  exact Int.ofNat_inj.mp hmod

theorem seeded_congr {s s' : ℕ} (h : s % 2 ^ 32 = s' % 2 ^ 32) : seeded s = seeded s' := by
  funext k
  induction k with
  | zero => exact h
  | succ k ih =>
    unfold seeded
    rw [ih]

/-! ## The generator -/

/-- The array holds the words from `b` on, and the next one is the word at `p`. -/
structure At (x : ℕ → ℕ) (p : ℕ) (o : MT) : Prop where
  window : ∃ b, mt19937.Window x b o.v ∧ b + o.i = p
  pos : 0 < o.i
  le : o.i ≤ N

/-- The words up to `j` are written. -/
def Seeded (s j : ℕ) (v : Fin N → ℕ) : Prop := ∀ i : Fin N, i.val ≤ j → v i = seeded s i

theorem seeded_step {s : ℕ} {v : Fin N → ℕ} (j : Fin (N - 1)) (hv : Seeded s j v) :
    Seeded s (j + 1) (seedStep u v j) := by
  intro i hi
  unfold seedStep
  by_cases hij : i.val = j + 1
  · have hi' : i = ⟨j + 1, by omega⟩ := Fin.ext hij
    rw [hi', Function.update_self, seedWord_eq, hv _ le_rfl]
    rfl
  · have hne : i ≠ ⟨j + 1, by omega⟩ := fun heq => hij (congrArg Fin.val heq)
    rw [Function.update_of_ne hne]
    exact hv i (by omega)

theorem seeded_seedWords (v : Fin N → ℕ) (s : ℕ) : Seeded s (N - 1) (seedWords u v s) := by
  have hfirst : Seeded s 0 (Function.update v first (s &&& 0xffffffff)) := by
    intro i hi
    obtain rfl : i = first := Fin.ext (Nat.le_zero.mp hi)
    rw [Function.update_self]
    exact and_ones s
  exact foldl_induct hfirst fun j _ => seeded_step j

theorem initGenrand_v (o : MT) (s : ℕ) : (initGenrand u o s).v = seedWords u o.v s := by
  unfold initGenrand
  with_reducible rfl

theorem at_initGenrand (o : MT) (s : ℕ) : At (seeded s) N (initGenrand u o s) := by
  refine ⟨⟨0, fun j => ?_, Nat.zero_add _⟩, Nat.zero_lt_of_lt (Nat.lt_succ_self 623), le_rfl⟩
  have hv := seeded_seedWords (u := u) o.v s j (Nat.le_sub_one_of_lt j.isLt)
  rw [initGenrand_v, Nat.zero_add, mt19937.seq_lt _ j.isLt]
  exact hv

theorem at_genrandInt32 {x : ℕ → ℕ} {p : ℕ} {o : MT} (h : At x p o) :
    (genrandInt32 u o).1 = tempered (mt19937.seq x p) ∧ At x (p + 1) (genrandInt32 u o).2 := by
  obtain ⟨⟨b, hwindow, hp⟩, hpos, hle⟩ := h
  unfold genrandInt32
  split
  next hi =>
    -- the words are used up; init_genrand has been called
    have hN : o.i = N := by omega
    rw [if_neg (show ¬ o.i = N + 1 by omega)]
    have hblock := window_generate hwindow
    dsimp only
    rw [temper_eq]
    refine ⟨?_, ⟨b + N, hblock, ?_⟩, Nat.one_pos, hpos.trans_le hle⟩
    · rw [← hp, hN]
      exact congrArg tempered (hblock first)
    · show b + N + 1 = p + 1
      omega
  next hi =>
    dsimp only
    rw [temper_eq]
    refine ⟨?_, ⟨b, hwindow, ?_⟩, Nat.succ_pos _, ?_⟩
    · rw [← hp]
      exact congrArg tempered (hwindow ⟨o.i, _⟩)
    · show b + (o.i + 1) = p + 1
      omega
    · show o.i + 1 ≤ N
      omega

variable (u)

theorem at_after (o : MT) (seed : ℤ) (n : ℕ) :
    At (seeded (seed % 2 ^ 32).toNat) (N + n) (after u n (lnew u o seed)) := by
  induction n with
  | zero =>
    have hseed : u.ofLong seed % 2 ^ 32 = (seed % 2 ^ 32).toNat % 2 ^ 32 := by
      rw [← ofLong_mod (u := u), Nat.mod_mod]
    rw [← seeded_congr hseed]
    exact at_initGenrand o _
  | succ n ih => exact (at_genrandInt32 ih).2

theorem number_eq (o : MT) (seed : ℤ) (n : ℕ) :
    number u n (lnew u o seed) = tempered (word seed (N + n)) :=
  (at_genrandInt32 (at_after u o seed n)).1

/-- After a seed, the numbers are the tempered words from the `N`-th on, whatever the size of
`unsigned long` and whatever was in memory; the index stays in the array, and below `2 ^ 32` they
stay; and `N` numbers after one another determine all that follow. -/
theorem genrandInt32_stream (o : MT) (seed : ℤ) :
    (∀ n, number u n (lnew u o seed) = tempered (word seed (N + n)) ∧
      number u n (lnew u o seed) < 2 ^ 32 ∧
      0 < (after u n (lnew u o seed)).i ∧ (after u n (lnew u o seed)).i ≤ N) ∧
    ∀ (u' : ULong) (o' : MT) (seed' : ℤ) (a b : ℕ),
      (∀ j < N, number u (a + j) (lnew u o seed) = number u' (b + j) (lnew u' o' seed')) →
      ∀ j, number u (a + j) (lnew u o seed) = number u' (b + j) (lnew u' o' seed') := by
  refine ⟨fun n => ?_, fun u' o' seed' a b h j => ?_⟩
  · have hat := at_after u o seed n
    refine ⟨number_eq u o seed n, ?_, hat.pos, hat.le⟩
    rw [number_eq]
    exact tempered_lt (word_lt _ _)
  · have hwords : ∀ j < N, word seed (N + a + j) = word seed' (N + b + j) := by
      intro j hj
      have hj' := h j hj
      rw [number_eq, number_eq, ← Nat.add_assoc, ← Nat.add_assoc] at hj'
      exact tempered_injective hj'
    rw [number_eq, number_eq, ← Nat.add_assoc, ← Nat.add_assoc]
    exact congrArg tempered (mt19937.seq_determined hwords j)

end Lua2SC.Random

import Mathlib.Data.Nat.Bitwise
import Mathlib.Logic.Function.Basic
import Mathlib.Tactic.Linarith

/-!
# A sequence with two taps, in an array of its own length

Each word is made of the word `n` places before it, the one after that, and the one `m` places after
it. An array of `n` words is enough to go on from: going through it once, each word is replaced by
the one `n` places later, and what the later ones need is there, replaced already or not yet
(`Partial.step`).

The words of such generators are scrambled by steps `y ^ (y >> k)` and `y ^ ((y << k) & mask)`,
which lose nothing (`xorShiftRight_injective`, `xorShiftLeft_injective`).
-/

namespace Lua2SC.Recurrence

variable {α : Type}

/-- `n` words back, `m` of them forward, and how a word is made. -/
structure Taps (α : Type) where
  n : ℕ
  m : ℕ
  pos : 0 < m
  lt : m < n
  next : α → α → α → α

namespace Taps

variable (t : Taps α)

/-- The sequence, from its first `n` words. -/
def seq (x : ℕ → α) (k : ℕ) : α :=
  if k < t.n then x k
  else t.next (seq x (k - t.n)) (seq x (k - t.n + 1)) (seq x (k - t.n + t.m))
termination_by k
decreasing_by
  all_goals
    have := t.pos
    have := t.lt
    omega

theorem seq_lt (x : ℕ → α) {k : ℕ} (hk : k < t.n) : t.seq x k = x k := by
  rw [seq, if_pos hk]

theorem seq_add (x : ℕ → α) (k : ℕ) :
    t.seq x (k + t.n) = t.next (t.seq x k) (t.seq x (k + 1)) (t.seq x (k + t.m)) := by
  rw [seq, if_neg (by omega), Nat.add_sub_cancel]

/-- A property of the first words that `next` keeps. -/
theorem seq_induct {P : α → Prop} {x : ℕ → α} (hx : ∀ k < t.n, P (x k))
    (hnext : ∀ a b c, P a → P b → P c → P (t.next a b c)) (k : ℕ) : P (t.seq x k) := by
  induction k using Nat.strong_induction_on with
  | _ k ih =>
    have hpos := t.pos
    have hlt := t.lt
    by_cases hk : k < t.n
    · rw [t.seq_lt x hk]
      exact hx k hk
    · rw [seq, if_neg hk]
      exact hnext _ _ _ (ih _ (by omega)) (ih _ (by omega)) (ih _ (by omega))

/-- `n` words after one another determine the rest. -/
theorem seq_determined {x y : ℕ → α} {a b : ℕ}
    (h : ∀ j < t.n, t.seq x (a + j) = t.seq y (b + j)) (j : ℕ) :
    t.seq x (a + j) = t.seq y (b + j) := by
  induction j using Nat.strong_induction_on with
  | _ j ih =>
    have hpos := t.pos
    have hlt := t.lt
    by_cases hj : j < t.n
    · exact h j hj
    · obtain ⟨k, rfl⟩ : ∃ k, j = k + t.n := ⟨j - t.n, by omega⟩
      rw [← Nat.add_assoc, ← Nat.add_assoc, seq_add, seq_add]
      have h₀ := ih k (by omega)
      have h₁ := ih (k + 1) (by omega)
      have h₂ := ih (k + t.m) (by omega)
      rw [← Nat.add_assoc, ← Nat.add_assoc] at h₁ h₂
      rw [h₀, h₁, h₂]

/-- `k` words of the array are `n` places ahead of the others. -/
def Partial (x : ℕ → α) (b k : ℕ) (v : Fin t.n → α) : Prop :=
  ∀ j : Fin t.n, v j = t.seq x (if j < k then b + t.n + j else b + j)

/-- The array holds the words from `b` on. -/
def Window (x : ℕ → α) (b : ℕ) (v : Fin t.n → α) : Prop := ∀ j : Fin t.n, v j = t.seq x (b + j)

variable {t} {x : ℕ → α} {b k : ℕ} {v : Fin t.n → α}

theorem Window.begin (h : t.Window x b v) : t.Partial x b 0 v := fun j => by
  rw [if_neg (Nat.not_lt_zero _)]
  exact h j

theorem Partial.done (h : t.Partial x b t.n v) : t.Window x (b + t.n) v := fun j => by
  have hj := h j
  rw [if_pos j.isLt] at hj
  exact hj

/-- The next word is replaced. -/
theorem Partial.step (h : t.Partial x b k v) {i i₁ i₂ : Fin t.n} (hi : i.val = k)
    (hi₁ : i₁.val = (k + 1) % t.n) (hi₂ : i₂.val = (k + t.m) % t.n) :
    t.Partial x b (k + 1) (Function.update v i (t.next (v i) (v i₁) (v i₂))) := by
  have hpos := t.pos
  have hlt := t.lt
  have hk : k < t.n := hi ▸ i.isLt
  have h₀ : v i = t.seq x (b + k) := by
    rw [h i, if_neg (by omega), hi]
  -- the other two, ahead already if the array ends before them
  have h₁ : v i₁ = t.seq x (b + k + 1) := by
    rw [h i₁]
    congr 1
    by_cases hend : k + 1 < t.n
    · rw [Nat.mod_eq_of_lt hend] at hi₁
      rw [if_neg (by omega), hi₁]
      omega
    · have hn : k + 1 = t.n := by omega
      rw [hn, Nat.mod_self] at hi₁
      split
      · omega
      · omega
  have h₂ : v i₂ = t.seq x (b + k + t.m) := by
    rw [h i₂]
    congr 1
    by_cases hend : k + t.m < t.n
    · rw [Nat.mod_eq_of_lt hend] at hi₂
      rw [if_neg (by omega), hi₂]
      omega
    · rw [Nat.mod_eq_sub_mod (by omega), Nat.mod_eq_of_lt (by omega)] at hi₂
      rw [if_pos (by omega), hi₂]
      omega
  intro j
  by_cases hj : j = i
  · subst hj
    rw [Function.update_self, if_pos (by omega), h₀, h₁, h₂, hi, ← t.seq_add]
    congr 1
    omega
  · have hne : j.val ≠ k := fun heq => hj (Fin.ext (heq.trans hi.symm))
    rw [Function.update_of_ne hj, h j]
    congr 1
    by_cases hjk : j.val < k
    · rw [if_pos hjk, if_pos (by omega)]
    · rw [if_neg hjk, if_neg (by omega)]

end Taps

/-! ## Loops over the indices -/

/-- A loop with a counter, by an invariant. -/
theorem foldl_induct {σ : Type} {n : ℕ} {f : σ → Fin n → σ} {P : ℕ → σ → Prop} {s : σ}
    (h₀ : P 0 s) (hstep : ∀ (k : Fin n) (s : σ), P k s → P (k + 1) (f s k)) :
    P n (Fin.foldl n f s) := by
  induction n with
  | zero =>
    rw [Fin.foldl_zero]
    exact h₀
  | succ n ih =>
    rw [Fin.foldl_succ_last]
    exact hstep (Fin.last n) _ (ih fun k s hk => hstep k.castSucc s hk)

/-! ## Scrambling -/

/-- A shift to the right, xored in. -/
def xorShiftRight (k y : ℕ) : ℕ := y ^^^ (y >>> k)

/-- A shift to the left under a mask, xored in. -/
def xorShiftLeft (k mask y : ℕ) : ℕ := y ^^^ ((y <<< k) &&& mask)

theorem xor_swap {a b c d : Bool} (h : (a ^^ b) = (c ^^ d)) : (a ^^ c) = (b ^^ d) := by
  revert a b c d
  decide

theorem xorShiftRight_injective {k : ℕ} (hk : 0 < k) : Function.Injective (xorShiftRight k) := by
  intro y z h
  have hd : y ^^^ z = (y ^^^ z) >>> k := by
    refine Nat.eq_of_testBit_eq fun i => ?_
    have hi := congrArg (fun a => a.testBit i) h
    simp only [xorShiftRight, Nat.testBit_xor, Nat.testBit_shiftRight] at hi ⊢
    exact xor_swap hi
  have hzero : y ^^^ z = 0 := by
    by_contra hne
    have hlt := Nat.div_lt_self (Nat.pos_of_ne_zero hne) (Nat.one_lt_two_pow hk.ne')
    rw [Nat.shiftRight_eq_div_pow] at hd
    omega
  exact Nat.xor_eq_zero_iff.mp hzero

theorem xorShiftLeft_injective {k mask : ℕ} (hk : 0 < k) :
    Function.Injective (xorShiftLeft k mask) := by
  intro y z h
  refine Nat.eq_of_testBit_eq fun i => ?_
  -- from the low bits up
  induction i using Nat.strong_induction_on with
  | _ i ih =>
    have hi := congrArg (fun a => a.testBit i) h
    simp only [xorShiftLeft, Nat.testBit_xor, Nat.testBit_and, Nat.testBit_shiftLeft] at hi
    by_cases hki : k ≤ i
    · rw [ih (i - k) (by omega)] at hi
      exact Bool.xor_left_inj.mp hi
    · simpa [hki] using hi

end Lua2SC.Recurrence

import Lua2SC.Lib.Lua

/-!
# The order of Lua's numbers

`<` and `<=` on the numbers of `Lib.Lua`: the infinities below and above the finite ones.
With it comes the loop that Lua code writes for a least or a greatest value: start at an
infinity, and take what is better. `foldl_least` is said for any linear order, so that the
greatest is the least of the order turned round.

`mod` is `%` on the finite numbers, which rounds down.
-/

namespace Lua2SC.Lua

/-- Where a number stands among the rationals with a bottom and a top. -/
def LuaNumber.place : LuaNumber → WithBot (WithTop ℚ)
  | .finite q => ((q : WithTop ℚ) : WithBot (WithTop ℚ))
  | .huge => ((⊤ : WithTop ℚ) : WithBot (WithTop ℚ))
  | .negHuge => ⊥

theorem LuaNumber.place_injective : Function.Injective LuaNumber.place := by
  intro x y h
  cases x <;> cases y <;> simp_all [LuaNumber.place]

instance : LinearOrder LuaNumber := LinearOrder.lift' LuaNumber.place LuaNumber.place_injective

namespace LuaNumber

theorem le_iff {x y : LuaNumber} : x ≤ y ↔ x.place ≤ y.place := Iff.rfl

theorem lt_iff {x y : LuaNumber} : x < y ↔ x.place < y.place := Iff.rfl

@[simp] theorem finite_le_finite {p q : ℚ} : finite p ≤ finite q ↔ p ≤ q := by
  simp [le_iff, place]

@[simp] theorem finite_lt_finite {p q : ℚ} : finite p < finite q ↔ p < q := by
  simp [lt_iff, place]

@[simp] theorem le_huge {x : LuaNumber} : x ≤ huge := by
  cases x <;> simp [le_iff, place]

@[simp] theorem negHuge_le {x : LuaNumber} : negHuge ≤ x := by
  simp [le_iff, place]

/-- `x + c` for a finite `c`. -/
def plus (x : LuaNumber) (c : ℚ) : LuaNumber :=
  match x with
  | finite q => finite (q + c)
  | huge => huge
  | negHuge => negHuge

/-- `c - x` for a finite `c`. -/
def less (c : ℚ) (x : LuaNumber) : LuaNumber :=
  match x with
  | finite q => finite (c - q)
  | huge => negHuge
  | negHuge => huge

end LuaNumber

/-! ## The least of a list -/

/-- The loop takes the least value it comes by, its start included. -/
theorem foldl_least {α K : Type*} [LinearOrder K] (f : α → K) (l : List α) (a : K) :
    let m := l.foldl (fun m x => if f x < m then f x else m) a
    m ≤ a ∧ (∀ x ∈ l, m ≤ f x) ∧ (m = a ∨ ∃ x ∈ l, m = f x) := by
  induction l using List.reverseRecOn with
  | nil => simp
  | append_singleton l x ih =>
    obtain ⟨hstart, hall, hfrom⟩ := ih
    simp only [List.foldl_append, List.foldl_cons, List.foldl_nil, List.mem_append,
      List.mem_singleton]
    split
    next hlt =>
      refine ⟨hlt.le.trans hstart, ?_, Or.inr ⟨x, Or.inr rfl, rfl⟩⟩
      intro y hy
      rcases hy with hy | rfl
      · exact hlt.le.trans (hall y hy)
      · exact le_rfl
    next hge =>
      refine ⟨hstart, ?_, ?_⟩
      · intro y hy
        rcases hy with hy | rfl
        · exact hall y hy
        · exact not_lt.mp hge
      · rcases hfrom with h | ⟨y, hy, h⟩
        · exact Or.inl h
        · exact Or.inr ⟨y, Or.inl hy, h⟩

/-- Started at a top, the loop ends at a value of a non-empty list. -/
theorem foldl_least_mem {α K : Type*} [LinearOrder K] (f : α → K) {l : List α} (hl : l ≠ [])
    {a : K} (ha : ∀ x ∈ l, f x ≤ a) :
    ∃ x ∈ l, l.foldl (fun m x => if f x < m then f x else m) a = f x := by
  obtain ⟨-, hall, hfrom⟩ := foldl_least f l a
  rcases hfrom with h | hmem
  · obtain ⟨x, hx⟩ := List.exists_mem_of_ne_nil l hl
    refine ⟨x, hx, le_antisymm (hall x hx) ?_⟩
    rw [h]
    exact ha x hx
  · exact hmem

/-! ## `%` -/

/-- `a % b`. -/
def mod (a b : ℚ) : ℚ := a - ⌊a / b⌋ * b

/-- What is left of a number above a multiple. -/
theorem mod_eq {a b : ℚ} {k : ℤ} (hb : 0 < b) (hlo : k * b ≤ a) (hhi : a < (k + 1) * b) :
    mod a b = a - k * b := by
  have hfloor : ⌊a / b⌋ = k := by
    rw [Int.floor_eq_iff, le_div_iff₀ hb, div_lt_iff₀ hb]
    exact ⟨hlo, hhi⟩
  rw [mod, hfloor]

/-- The multiple below a number. -/
theorem exists_cell {b : ℚ} (hb : 0 < b) (a : ℚ) : ∃ k : ℤ, k * b ≤ a ∧ a < (k + 1) * b :=
  ⟨⌊a / b⌋, (le_div_iff₀ hb).mp (Int.floor_le _), (div_lt_iff₀ hb).mp (Int.lt_floor_add_one _)⟩

end Lua2SC.Lua

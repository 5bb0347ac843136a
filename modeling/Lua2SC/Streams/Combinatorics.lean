import Lua2SC.Lib.Lua

/-!
# `combinatorics.lua`: compositions

A composition of `n` into `p` parts has the parts `m`, `m + q`, `m + 2q`, …, all but the one
that is left when the others are chosen: that is at least `m`, and comes first
(`IsComposition`).

`compositions` lists all of them. `partition` and `composition` make one up at random in two
ways: `partition` draws a part and goes on with the rest, `composition` draws `p - 1` places
to cut at among the multiples of `q`. Whatever is drawn, what comes out is a composition,
of multiples of `q` in the second case.

Numbers are exact, and a draw is `valuei` of `lrandom.c`, from a real below 1.
-/

namespace Lua2SC.Combinatorics

open Lua2SC.Lua

/-! ## Random numbers -/

/-- What `genrand_real2` gives, call by call. -/
structure Draws where
  real : ℕ → ℚ
  nonneg : ∀ k, 0 ≤ real k
  lt_one : ∀ k, real k < 1

/-- The draws after `k` calls. -/
def Draws.drop (u : Draws) (k : ℕ) : Draws :=
  ⟨fun i => u.real (k + i), fun i => u.nonneg (k + i), fun i => u.lt_one (k + i)⟩

/-- `RANDOM:valuei(a,b)`. -/
def valuei (u : Draws) (a b : ℤ) : ℤ := ⌊(a : ℚ) + u.real 0 * (b - a + 1)⌋

theorem valuei_mem (u : Draws) {a b : ℤ} (h : a ≤ b) : a ≤ valuei u a b ∧ valuei u a b ≤ b := by
  have hwidth : (0 : ℚ) < b - a + 1 := by
    have hab : (a : ℚ) ≤ b := Int.cast_le.mpr h
    linarith
  constructor
  · apply Int.le_floor.mpr
    have hnonneg := mul_nonneg (u.nonneg 0) hwidth.le
    linarith
  · apply Int.lt_add_one_iff.mp
    apply Int.floor_lt.mpr
    have hlt := mul_lt_mul_of_pos_right (u.lt_one 0) hwidth
    push_cast
    linarith

/-! ## `compositions` -/

/-- The values of `for i=a,b,s`. -/
def forRange (a b s : ℚ) : List ℚ :=
  (List.range (⌊(b - a) / s⌋ + 1).toNat).map fun h : ℕ => a + h * s

/-- The recursion of `compositions`, which does not end without a part. -/
def compositionsFrom (m q : ℚ) : ℕ → ℚ → LuaM (List (List ℚ))
  | 0, _ => .error "stack overflow"
  | 1, n => do
    luaAssert (n ≥ m) "Partitions Error:Total less than minimum"
    .ok [[n]]
  | p + 2, n => do
    -- no more than leaves `m` for each of the others
    let res ← (forRange m (n - (p + 1) * m) q).mapM fun i => do
      let pp ← compositionsFrom m q (p + 1) (n - i)
      .ok (pp.map fun v => v ++ [i])
    .ok res.flatten

def compositions (n : ℚ) (p : ℕ) (m q : Option ℚ) : LuaM (List (List ℚ)) :=
  let m := m.getD 1
  let q := q.getD m
  compositionsFrom m q p n

/-! ## `partition` -/

/-- The recursion of `partition`. -/
def partitionFrom (m q : ℚ) : ℕ → ℚ → Draws → LuaM (List ℚ)
  | 0, _, _ => .error "stack overflow"
  | 1, n, _ => do
    luaAssert (n ≥ m) "Partitions Error:Total less than minimum"
    .ok [n]
  | p + 2, n, u => do
    let maxn := n - (p + 1) * m
    if m ≤ maxn then
      let hmax := ⌊(n - (p + 2) * m) / q⌋
      let h := valuei u 0 hmax
      let i := m + h * q
      let pp ← partitionFrom m q (p + 1) (n - i) (u.drop 1)
      .ok (pp ++ [i])
    else .ok []

def partition (n : ℚ) (p : ℕ) (m q : Option ℚ) (u : Draws) : LuaM (List ℚ) :=
  let m := m.getD 1
  let q := q.getD m
  partitionFrom m q p n u

/-! ## `composition` -/

/-- The loop of `chooseN`; an index beyond the list would leave a hole. -/
def chooseFrom : ℕ → List ℚ → Draws → List ℚ
  | 0, _, _ => []
  | n + 1, tt, u =>
    let ind := (valuei u 1 tt.length).toNat - 1
    -- a place is drawn once
    (tt[ind]?).toList ++ chooseFrom n (tt.eraseIdx ind) (u.drop 1)

def chooseN (t : List ℚ) (n : ℕ) (u : Draws) : LuaM (List ℚ) := do
  luaAssert (t.length ≥ n ∧ n > 0) "assertion failed!"
  .ok (chooseFrom n t u)

/-- `seriesFill(n)`. -/
def seriesFill (n : ℕ) : List ℚ := (List.range n).map fun i : ℕ => (1 + i : ℚ)

/-- The differences of a list, the first to `last`. -/
def differences (last : ℚ) : List ℚ → List ℚ
  | [] => []
  | x :: ht => (x - last) :: differences x ht

def compositionN (n : ℚ) (p : ℕ) (u : Draws) : LuaM (List ℚ) := do
  luaAssert (n > 0) "assertion failed!"
  luaAssert (p > 0) "assertion failed!"
  luaAssert (n ≥ p) "assertion failed!"
  luaAssert (n = ⌊n⌋) "assertion failed!"
  if p = 1 then .ok [n]
  else do
    let holes := seriesFill (⌊n⌋.toNat - 1)
    let ht ← chooseN holes (p - 1) u
    .ok (differences 0 (ht.insertionSort (· ≤ ·) ++ [n]))

def compositionNR (n : ℚ) (p : ℕ) (m : ℚ) (u : Draws) : LuaM (List ℚ) := do
  luaAssert (m = ⌊m⌋) "assertion failed!"
  let res ← compositionN (n - (m - 1) * p) p u
  .ok (res.map fun v => v + m - 1)

def composition (n : ℚ) (p : ℕ) (m q : Option ℚ) (u : Draws) : LuaM (List ℚ) := do
  let m := m.getD 1
  let q := q.getD m
  let Q := 1 / q
  -- in steps of `q`
  let res ← compositionNR (Q * n) p (m * Q) u
  .ok (res.map fun v => v * q)

/-! ## What a composition is -/

/-- `p` parts with sum `n`: the first is at least `m`, the others are `m` and steps of `q`. -/
structure IsComposition (p : ℕ) (m q n : ℚ) (l : List ℚ) : Prop where
  length : l.length = p
  sum : l.sum = n
  rest : ∀ x ∈ l.head?, m ≤ x
  drawn : ∀ x ∈ l.tail, ∃ h : ℕ, x = m + h * q

section

variable {m q : ℚ}

theorem IsComposition.le (hq : 0 < q) {p : ℕ} {n : ℚ} {l : List ℚ}
    (h : IsComposition p m q n l) : ∀ x ∈ l, m ≤ x := by
  intro x hx
  cases l with
  | nil => cases hx
  | cons y l =>
    rcases List.mem_cons.mp hx with rfl | hx
    · exact h.rest x rfl
    · obtain ⟨k, rfl⟩ := h.drawn x hx
      have hk : 0 ≤ (k : ℚ) * q := mul_nonneg k.cast_nonneg hq.le
      linarith

/-- The parts need their minimum. -/
theorem IsComposition.total (hq : 0 < q) {p : ℕ} {n : ℚ} {l : List ℚ}
    (h : IsComposition p m q n l) : p * m ≤ n := by
  have hle := List.card_nsmul_le_sum l m (h.le hq)
  rwa [nsmul_eq_mul, h.length, h.sum] at hle

theorem isComposition_one {n : ℚ} (h : m ≤ n) {l : List ℚ} :
    IsComposition 1 m q n l ↔ l = [n] := by
  constructor
  · intro hl
    obtain ⟨x, rfl⟩ := List.length_eq_one_iff.mp hl.length
    rw [← hl.sum, List.sum_singleton]
  · rintro rfl
    refine ⟨rfl, List.sum_singleton, ?_, by simp⟩
    intro x hx
    rwa [← Option.some.inj hx]

/-- A part more, drawn and put at the end. -/
theorem isComposition_concat {p : ℕ} {n x : ℚ} {l : List ℚ} (hl : l ≠ []) :
    IsComposition (p + 1) m q n (l ++ [x]) ↔
      IsComposition p m q (n - x) l ∧ ∃ h : ℕ, x = m + h * q := by
  obtain ⟨y, l, rfl⟩ := List.exists_cons_of_ne_nil hl
  constructor
  · intro h
    refine ⟨⟨?_, ?_, h.rest, ?_⟩, ?_⟩
    · have hlen := h.length
      rw [List.length_append, List.length_singleton] at hlen
      omega
    · have hsum := h.sum
      rw [List.sum_append, List.sum_singleton] at hsum
      linarith
    · exact fun z hz => h.drawn z (List.mem_append_left [x] hz)
    · exact h.drawn x (List.mem_append_right l (List.mem_singleton_self x))
  · rintro ⟨h, hx⟩
    refine ⟨?_, ?_, h.rest, ?_⟩
    · rw [List.length_append, h.length, List.length_singleton]
    · rw [List.sum_append, h.sum, List.sum_singleton]
      ring
    · intro z hz
      rcases List.mem_append.mp hz with hz | hz
      · exact h.drawn z hz
      · rwa [List.mem_singleton.mp hz]

/-- The loop takes the parts that leave enough for the others. -/
theorem mem_forRange {a b s : ℚ} (hs : 0 < s) {x : ℚ} :
    x ∈ forRange a b s ↔ (∃ h : ℕ, x = a + h * s) ∧ x ≤ b := by
  have hbound : ∀ h : ℕ, h < (⌊(b - a) / s⌋ + 1).toNat ↔ a + h * s ≤ b := by
    intro h
    rw [Int.lt_toNat, Int.lt_add_one_iff, Int.le_floor, le_div_iff₀ hs, Int.cast_natCast]
    constructor <;> intro hle <;> linarith
  rw [forRange, List.mem_map]
  constructor
  · rintro ⟨h, hh, rfl⟩
    exact ⟨⟨h, rfl⟩, (hbound h).mp (List.mem_range.mp hh)⟩
  · rintro ⟨⟨h, rfl⟩, hle⟩
    exact ⟨h, List.mem_range.mpr ((hbound h).mpr hle), rfl⟩

theorem nodup_forRange {a b s : ℚ} (hs : 0 < s) : (forRange a b s).Nodup := by
  refine List.nodup_range.map fun i j hij => ?_
  have hmul : (i : ℚ) * s = j * s := add_left_cancel hij
  exact Nat.cast_injective (mul_right_cancel₀ hs.ne' hmul)

/-! ## All compositions -/

section Extend

variable {p : ℕ} {n : ℚ} {pps : ℚ → List (List ℚ)}

/-- Each with its drawn part at the end: these are the compositions with a part more. -/
theorem mem_extend_iff (hq : 0 < q)
    (hpps : ∀ i ∈ forRange m (n - (p + 1) * m) q, ∀ l,
      l ∈ pps i ↔ IsComposition (p + 1) m q (n - i) l) (l : List ℚ) :
    l ∈ (forRange m (n - (p + 1) * m) q).flatMap (fun i => (pps i).map (· ++ [i])) ↔
      IsComposition (p + 1 + 1) m q n l := by
  rw [List.mem_flatMap]
  constructor
  · rintro ⟨i, hi, hl⟩
    obtain ⟨v, hv, rfl⟩ := List.mem_map.mp hl
    have hcomp := (hpps i hi v).mp hv
    have hne : v ≠ [] := List.ne_nil_of_length_eq_add_one hcomp.length
    exact (isComposition_concat hne).mpr ⟨hcomp, ((mem_forRange hq).mp hi).1⟩
  · intro hl
    obtain ⟨v, x, rfl⟩ : ∃ v x, l = v ++ [x] :=
      ⟨_, _, (List.dropLast_append_getLast (List.ne_nil_of_length_eq_add_one hl.length)).symm⟩
    have hne : v ≠ [] := by
      rintro rfl
      have hlen := hl.length
      simp at hlen
    obtain ⟨hcomp, hx⟩ := (isComposition_concat hne).mp hl
    -- what is left for the other parts bounds the drawn one
    have htotal := hcomp.total hq
    push_cast at htotal
    have hi : x ∈ forRange m (n - (p + 1) * m) q :=
      (mem_forRange hq).mpr ⟨hx, by linarith⟩
    exact ⟨x, hi, List.mem_map.mpr ⟨v, (hpps x hi v).mpr hcomp, rfl⟩⟩

/-- The last part tells the lists apart. -/
theorem nodup_extend (hq : 0 < q) {b : ℚ} (hpps : ∀ i ∈ forRange m b q, (pps i).Nodup) :
    ((forRange m b q).flatMap fun i => (pps i).map (· ++ [i])).Nodup := by
  rw [List.nodup_flatMap]
  constructor
  · intro i hi
    exact (hpps i hi).map fun l l' hll => List.append_cancel_right hll
  · refine (nodup_forRange hq).imp fun {i j} hij l hl hl' => ?_
    obtain ⟨v, -, rfl⟩ := List.mem_map.mp hl
    obtain ⟨w, -, heq⟩ := List.mem_map.mp hl'
    exact hij (List.singleton_inj.mp (List.append_inj_right' heq rfl)).symm

end Extend

/-- **All of them**, each once. -/
theorem compositionsFrom_spec (hq : 0 < q) :
    ∀ (p : ℕ) {n : ℚ}, (p + 1) * m ≤ n → ∃ res, compositionsFrom m q (p + 1) n = .ok res ∧
      res.Nodup ∧ ∀ l, l ∈ res ↔ IsComposition (p + 1) m q n l := by
  intro p
  induction p with
  | zero =>
    intro n hn
    have hle : m ≤ n := by simpa using hn
    refine ⟨[[n]], ?_, List.nodup_singleton _, fun l => ?_⟩
    · rw [compositionsFrom, luaAssert_true (show n ≥ m from hle)]
      rfl
    · rw [List.mem_singleton, isComposition_one hle]
  | succ p ih =>
    intro n hn
    push_cast at hn
    -- what the recursion gives for each part of the loop
    have hrec : ∀ i, ∃ pp, i ∈ forRange m (n - (p + 1) * m) q →
        compositionsFrom m q (p + 1) (n - i) = .ok pp ∧ pp.Nodup ∧
          ∀ l, l ∈ pp ↔ IsComposition (p + 1) m q (n - i) l := by
      intro i
      by_cases hi : i ∈ forRange m (n - (p + 1) * m) q
      · have hle := ((mem_forRange hq).mp hi).2
        obtain ⟨pp, hpp⟩ := ih (n := n - i) (by linarith)
        exact ⟨pp, fun _ => hpp⟩
      · exact ⟨[], fun h => absurd h hi⟩
    choose pps hpps using hrec
    refine ⟨(forRange m (n - (p + 1) * m) q).flatMap fun i => (pps i).map (· ++ [i]),
      ?_, ?_, ?_⟩
    · rw [compositionsFrom, mapM_ok fun i hi => by rw [(hpps i hi).1, ok_bind], ok_bind]
      rfl
    · exact nodup_extend hq fun i hi => (hpps i hi).2.1
    · exact mem_extend_iff hq fun i hi => (hpps i hi).2.2

/-! ## One at random -/

theorem partitionFrom_spec (hq : 0 < q) :
    ∀ (p : ℕ) {n : ℚ} (u : Draws), (p + 1) * m ≤ n →
      ∃ l, partitionFrom m q (p + 1) n u = .ok l ∧ IsComposition (p + 1) m q n l := by
  intro p
  induction p with
  | zero =>
    intro n u hn
    have hle : m ≤ n := by simpa using hn
    refine ⟨[n], ?_, (isComposition_one hle).mpr rfl⟩
    rw [partitionFrom, luaAssert_true (show n ≥ m from hle)]
    rfl
  | succ p ih =>
    intro n u hn
    push_cast at hn
    have hmax : 0 ≤ ⌊(n - (p + 2) * m) / q⌋ :=
      Int.floor_nonneg.mpr (div_nonneg (by linarith) hq.le)
    obtain ⟨hh₀, hh⟩ := valuei_mem u hmax
    have hdraw : (valuei u 0 ⌊(n - (p + 2) * m) / q⌋ : ℚ) * q ≤ n - (p + 2) * m := by
      rw [← le_div_iff₀ hq]
      exact Int.le_floor.mp hh
    obtain ⟨k, hk⟩ := Int.eq_ofNat_of_zero_le hh₀
    rw [hk, Int.cast_natCast] at hdraw
    obtain ⟨l, hl, hcomp⟩ := ih (n := n - (m + k * q)) (u.drop 1) (by linarith)
    refine ⟨l ++ [m + k * q], ?_, ?_⟩
    · rw [partitionFrom]
      simp only [if_pos (show m ≤ n - (p + 1) * m by linarith), hk, Int.cast_natCast, hl, ok_bind]
    · have hne : l ≠ [] := List.ne_nil_of_length_eq_add_one hcomp.length
      exact (isComposition_concat hne).mpr ⟨hcomp, k, rfl⟩

end

/-! ## Places to cut at -/

/-- A choice of places. -/
structure IsChoice (t : List ℚ) (n : ℕ) (l : List ℚ) : Prop where
  length : l.length = n
  nodup : l.Nodup
  mem : ∀ x ∈ l, x ∈ t

theorem chooseFrom_spec :
    ∀ (n : ℕ) {tt : List ℚ} (u : Draws), tt.Nodup → n ≤ tt.length →
      IsChoice tt n (chooseFrom n tt u) := by
  intro n
  induction n with
  | zero => intro tt u _ _; exact ⟨rfl, List.nodup_nil, by simp [chooseFrom]⟩
  | succ n ih =>
    intro tt u hnd hle
    obtain ⟨hlow, hhigh⟩ := valuei_mem u (show (1 : ℤ) ≤ tt.length by omega)
    have hind : (valuei u 1 tt.length).toNat - 1 < tt.length := by omega
    have hrest : n ≤ (tt.eraseIdx ((valuei u 1 tt.length).toNat - 1)).length := by
      rw [List.length_eraseIdx_of_lt hind]
      omega
    obtain ⟨hlen, hnodup, hmem⟩ :=
      ih (u.drop 1) (hnd.sublist (List.eraseIdx_sublist ..)) hrest
    rw [chooseFrom]
    simp only [List.getElem?_eq_getElem hind, Option.toList_some, List.singleton_append]
    refine ⟨by rw [List.length_cons, hlen], List.nodup_cons.mpr ⟨fun h => ?_, hnodup⟩, ?_⟩
    · -- the place taken is no longer in the list
      obtain ⟨i, hi, hget⟩ := List.mem_eraseIdx_iff_getElem?.mp (hmem _ h)
      rw [← List.getElem?_eq_getElem hind] at hget
      exact hi ((List.getElem?_inj hind hnd).mp hget.symm).symm
    · intro x hx
      rcases List.mem_cons.mp hx with rfl | hx
      · exact List.getElem_mem hind
      · exact List.mem_of_mem_eraseIdx (hmem x hx)

theorem mem_seriesFill {n : ℕ} {x : ℚ} :
    x ∈ seriesFill n ↔ ∃ k : ℤ, x = k ∧ 0 < k ∧ k < n + 1 := by
  rw [seriesFill, List.mem_map]
  constructor
  · rintro ⟨i, hi, rfl⟩
    have hi := List.mem_range.mp hi
    exact ⟨1 + i, by push_cast; ring, by omega, by omega⟩
  · rintro ⟨k, rfl, hpos, hlt⟩
    refine ⟨(k - 1).toNat, List.mem_range.mpr (by omega), ?_⟩
    have hk : ((k - 1).toNat : ℤ) = k - 1 := Int.toNat_of_nonneg (by omega)
    rw [← Int.cast_natCast, hk]
    push_cast
    ring

theorem nodup_seriesFill (n : ℕ) : (seriesFill n).Nodup := by
  refine List.nodup_range.map fun i j hij => ?_
  exact Nat.cast_injective (add_left_cancel hij)

theorem sum_differences (last : ℚ) (l : List ℚ) :
    (differences last l).sum = l.getLastD last - last := by
  induction l generalizing last with
  | nil => simp [differences]
  | cons x l ih =>
    rw [differences, List.sum_cons, ih, List.getLastD_cons]
    ring

theorem length_differences (last : ℚ) (l : List ℚ) : (differences last l).length = l.length := by
  induction l generalizing last with
  | nil => rfl
  | cons x l ih => rw [differences, List.length_cons, List.length_cons, ih]

/-- Between whole numbers that go up there are whole numbers, 1 at least. -/
theorem mem_differences {l : List ℚ} :
    ∀ {last : ℤ}, (∀ x ∈ l, ∃ k : ℤ, x = k ∧ last < k) → l.Pairwise (· < ·) →
      ∀ x ∈ differences last l, ∃ k : ℤ, x = k ∧ 1 ≤ k := by
  induction l with
  | nil => intro last _ _ x hx; cases hx
  | cons y l ih =>
    intro last hall hsorted x hx
    obtain ⟨k, rfl, hk⟩ := hall y (List.mem_cons_self ..)
    rcases List.mem_cons.mp hx with rfl | hx
    · exact ⟨k - last, by push_cast; ring, by omega⟩
    · obtain ⟨hlt, hrest⟩ := List.pairwise_cons.mp hsorted
      refine ih (fun z hz => ?_) hrest x hx
      obtain ⟨j, rfl, -⟩ := hall z (List.mem_cons_of_mem _ hz)
      exact ⟨j, rfl, Int.cast_lt.mp (hlt _ hz)⟩

/-- `p` whole numbers with sum `n`, 1 at least. -/
theorem compositionN_spec {n : ℤ} {p : ℕ} (hp : 1 ≤ p) (hn : (p : ℤ) ≤ n) (u : Draws) :
    ∃ l, compositionN n p u = .ok l ∧ l.length = p ∧ l.sum = n ∧
      ∀ x ∈ l, ∃ k : ℤ, x = k ∧ 1 ≤ k := by
  have hpos : (n : ℚ) > 0 := by exact_mod_cast show 0 < n by omega
  have hge : (n : ℚ) ≥ p := by exact_mod_cast hn
  have hfloor : (n : ℚ) = ⌊(n : ℚ)⌋ := by rw [Int.floor_intCast]
  rw [compositionN, luaAssert_true hpos, luaAssert_true (show p > 0 from hp), luaAssert_true hge,
    luaAssert_true hfloor]
  simp only [ok_bind]
  by_cases hone : p = 1
  · rw [if_pos hone]
    refine ⟨[(n : ℚ)], rfl, hone.symm, List.sum_singleton, ?_⟩
    intro x hx
    exact ⟨n, List.mem_singleton.mp hx, by omega⟩
  · rw [if_neg hone, Int.floor_intCast]
    have hlen : (seriesFill (n.toNat - 1)).length = n.toNat - 1 := by simp [seriesFill]
    obtain ⟨hclen, hcnd, hcmem⟩ := chooseFrom_spec (p - 1) u (nodup_seriesFill (n.toNat - 1))
      (by rw [hlen]; omega)
    generalize hht : chooseFrom (p - 1) (seriesFill (n.toNat - 1)) u = ht at hclen hcnd hcmem
    have hperm := List.perm_insertionSort (· ≤ ·) ht
    -- the places are whole numbers from 1 to n - 1, in order
    have hplace : ∀ x ∈ ht.insertionSort (· ≤ ·), ∃ k : ℤ, x = k ∧ 0 < k ∧ k < n := by
      intro x hx
      obtain ⟨k, rfl, hk, hkn⟩ := mem_seriesFill.mp (hcmem x (hperm.mem_iff.mp hx))
      exact ⟨k, rfl, hk, by omega⟩
    have hsorted : (ht.insertionSort (· ≤ ·) ++ [(n : ℚ)]).Pairwise (· < ·) := by
      refine List.pairwise_append.mpr ⟨?_, List.pairwise_singleton .., ?_⟩
      · have hle := List.pairwise_insertionSort (· ≤ ·) ht
        exact (hle.and (hperm.nodup_iff.mpr hcnd)).imp fun h => lt_of_le_of_ne h.1 h.2
      · intro x hx y hy
        obtain ⟨k, rfl, -, hkn⟩ := hplace x hx
        rw [List.mem_singleton.mp hy]
        exact Int.cast_lt.mpr hkn
    refine ⟨differences 0 (ht.insertionSort (· ≤ ·) ++ [(n : ℚ)]), ?_, ?_, ?_, ?_⟩
    · rw [chooseN, luaAssert_true (by rw [hlen]; omega), ok_bind, hht, ok_bind]
    · rw [length_differences, List.length_append, List.length_insertionSort, hclen,
        List.length_singleton]
      omega
    · rw [sum_differences]
      simp
    · have hall : ∀ x ∈ ht.insertionSort (· ≤ ·) ++ [(n : ℚ)], ∃ k : ℤ, x = k ∧ 0 < k := by
        intro x hx
        rcases List.mem_append.mp hx with hx | hx
        · obtain ⟨k, rfl, hk, -⟩ := hplace x hx
          exact ⟨k, rfl, hk⟩
        · exact ⟨n, List.mem_singleton.mp hx, by omega⟩
      exact_mod_cast mem_differences hall hsorted

/-- The sum of parts that are counted in steps of `q`, from `M` on. -/
theorem sum_steps (M q : ℚ) (l : List ℚ) :
    ((l.map fun v => v + M - 1).map fun v => v * q).sum = (l.sum + l.length * (M - 1)) * q := by
  induction l with
  | nil => simp
  | cons x l ih =>
    rw [List.map_cons, List.map_cons, List.sum_cons, ih, List.sum_cons, List.length_cons]
    push_cast
    ring

/-- Multiples of `q`, `m` at least. -/
theorem composition_spec {n m q : ℚ} {p : ℕ} (hp : 1 ≤ p) (hq : 0 < q) (hn : p * m ≤ n)
    (hnq : ∃ k : ℤ, n = k * q) (hmq : ∃ k : ℤ, m = k * q) (u : Draws) :
    ∃ l, composition n p (some m) (some q) u = .ok l ∧ l.length = p ∧ l.sum = n ∧
      ∀ x ∈ l, m ≤ x ∧ ∃ k : ℤ, x = k * q := by
  obtain ⟨N, rfl⟩ := hnq
  obtain ⟨M, rfl⟩ := hmq
  have hle : (p : ℤ) * M ≤ N := by
    have hmul : (p : ℚ) * M * q ≤ N * q := by linarith
    exact_mod_cast le_of_mul_le_mul_right hmul hq
  -- in steps of q the minimum is 1 above M - 1
  obtain ⟨l, hl, hlen, hsum, hall⟩ :=
    compositionN_spec (n := N - (M - 1) * p) hp (by nlinarith) u
  have hQn : 1 / q * (N * q) = N := by field_simp
  have hQm : M * q * (1 / q) = M := by field_simp
  have harg : (N : ℚ) - (M - 1) * p = ((N - (M - 1) * p : ℤ) : ℚ) := by push_cast; ring
  refine ⟨(l.map fun v : ℚ => v + M - 1).map fun v => v * q, ?_, ?_, ?_, ?_⟩
  · rw [composition]
    simp only [Option.getD_some, hQn, hQm]
    rw [compositionNR, luaAssert_true (by rw [Int.floor_intCast]), ok_bind, harg, hl, ok_bind,
      ok_bind]
  · rw [List.length_map, List.length_map, hlen]
  · rw [sum_steps, hsum, hlen]
    push_cast
    ring
  · intro x hx
    obtain ⟨v, hv, rfl⟩ := List.mem_map.mp hx
    obtain ⟨w, hw, rfl⟩ := List.mem_map.mp hv
    obtain ⟨k, rfl, hk⟩ := hall w hw
    have hk' : (1 : ℚ) ≤ k := by exact_mod_cast hk
    refine ⟨mul_le_mul_of_nonneg_right (by linarith) hq.le, k + M - 1, by push_cast; ring⟩

example : compositions 5 2 (some (3 / 2)) (some (1 / 2)) =
    .ok [[7 / 2, 3 / 2], [3, 2], [5 / 2, 5 / 2], [2, 3], [3 / 2, 7 / 2]] := by
  decide +kernel

end Lua2SC.Combinatorics

import Mathlib

/-!
# The Lua values the models share

Lua strings are byte strings, Lua tables are finite maps, a raised error is
an `Except` error carrying its message. Numbers are exact: a Lua double is
`finite q` for the rational it stands for, or one of the two infinities.
NaN is left out on purpose: it is not a table key (`t[0/0] = v` raises
"table index is NaN"), so no table of the models can hold one.

Two pieces of Lua's table semantics are used by several models and get
their lemmas here: the length operator `#` (the first border of a table,
`border`), and `string.sub` on positive indices (`strSub`).
-/

namespace Lua2SC.Lua

universe u v

/-- A Lua string: any sequence of bytes. -/
abbrev LString := List UInt8

/-- The bytes of an ASCII literal. -/
def ascii (s : String) : LString := s.toList.map fun c => UInt8.ofNat c.toNat

/-- A Lua number that is not NaN. -/
inductive LuaNumber where
  | finite (q : ℚ)
  | huge
  | negHuge
deriving DecidableEq, Repr

/-- A Lua value other than nil. Tables, functions and userdata are compared by
identity, which is all that is kept of them. -/
inductive LuaValue where
  | bool (b : Bool)
  | number (x : LuaNumber)
  | string (s : LString)
  | ref (id : ℕ)
deriving DecidableEq, Repr

/-- A computation that may raise a Lua error. -/
abbrev LuaM := Except String

/-- `assert(c, msg)`. -/
def luaAssert (c : Prop) [Decidable c] (msg : String) : LuaM Unit :=
  if c then .ok () else .error msg

@[simp] theorem luaAssert_ok {c : Prop} [Decidable c] {msg : String} {u : Unit} :
    luaAssert c msg = .ok u ↔ c := by
  unfold luaAssert
  split <;> simp_all

theorem luaAssert_true {c : Prop} [Decidable c] {msg : String} (h : c) :
    luaAssert c msg = .ok () := by
  rw [luaAssert_ok]; exact h

/-- A successful `bind` splits into two successful runs. -/
theorem bind_ok {ε : Type v} {α β : Type u} {x : Except ε α} {f : α → Except ε β} {b : β} :
    x >>= f = .ok b ↔ ∃ a, x = .ok a ∧ f a = .ok b := by
  cases x with
  | error e => simp [bind, Except.bind]
  | ok a => simp [bind, Except.bind]

@[simp] theorem ok_bind {ε : Type v} {α β : Type u} (a : α) (f : α → Except ε β) :
    (Except.ok a >>= f) = f a := rfl

/-- A loop in which nothing goes wrong. -/
theorem mapM_ok {A B : Type*} {l : List A} {g : A → LuaM B} {f : A → B}
    (h : ∀ x ∈ l, g x = .ok (f x)) : l.mapM g = .ok (l.map f) := by
  induction l with
  | nil => rfl
  | cons x l ih =>
    rw [List.mapM_cons, h x List.mem_cons_self, ih fun y hy => h y (List.mem_cons_of_mem x hy)]
    rfl

/-- A Lua table with keys `κ` and (non-nil) values `ν`. -/
abbrev LuaTable (κ ν : Type*) := AList fun _ : κ => ν

/-- `tablelength(T)`: the number of pairs in the table. -/
def tablelength {κ ν : Type*} (t : LuaTable κ ν) : ℕ := t.entries.length

/-- A new key makes the table one longer. -/
theorem tablelength_insert {κ ν : Type*} [DecidableEq κ] {t : LuaTable κ ν} {k : κ} {v : ν}
    (h : k ∉ t) : tablelength (t.insert k v) = tablelength t + 1 := by
  rw [AList.insert_of_notMem h]
  rfl

/-- The table filled by `for … do t[k] = v end` over a list of pairs. -/
def ofPairs {κ ν : Type*} [DecidableEq κ] (kvs : List (κ × ν)) : LuaTable κ ν :=
  kvs.foldl (fun t kv => t.insert kv.1 kv.2) ∅

theorem ofPairs_concat {κ ν : Type*} [DecidableEq κ] (kvs : List (κ × ν)) (kv : κ × ν) :
    ofPairs (kvs ++ [kv]) = (ofPairs kvs).insert kv.1 kv.2 := by
  simp [ofPairs, List.foldl_append]

/-- With distinct keys, the table holds exactly the pairs it was filled with. -/
theorem lookup_ofPairs {κ ν : Type*} [DecidableEq κ] {kvs : List (κ × ν)}
    (hnd : (kvs.map Prod.fst).Nodup) (k : κ) (v : ν) :
    (ofPairs kvs).lookup k = some v ↔ (k, v) ∈ kvs := by
  induction kvs using List.reverseRecOn with
  | nil => simp [ofPairs]
  | append_singleton kvs kv ih =>
    rw [List.map_append, List.map_singleton] at hnd
    obtain ⟨hnd₁, -, hdis⟩ := List.nodup_append.mp hnd
    rw [ofPairs_concat, List.mem_append, List.mem_singleton]
    by_cases hk : k = kv.1
    · subst hk
      rw [AList.lookup_insert, Option.some.injEq]
      constructor
      · rintro rfl; exact Or.inr rfl
      · rintro (hold | hnew)
        · -- the key is new, so no earlier pair has it
          exact absurd rfl (hdis kv.1 (List.mem_map.mpr ⟨_, hold, rfl⟩) kv.1
            (List.mem_singleton_self _))
        · rw [← hnew]
    · rw [AList.lookup_insert_ne hk, ih hnd₁]
      constructor
      · exact Or.inl
      · rintro (hold | hnew)
        · exact hold
        · exact absurd (congrArg Prod.fst hnew) hk

/-- With distinct keys, the table has as many pairs. -/
theorem tablelength_ofPairs {κ ν : Type*} [DecidableEq κ] {kvs : List (κ × ν)}
    (hnd : (kvs.map Prod.fst).Nodup) : tablelength (ofPairs kvs) = kvs.length := by
  induction kvs using List.reverseRecOn with
  | nil => rfl
  | append_singleton kvs kv ih =>
    rw [List.map_append, List.map_singleton] at hnd
    obtain ⟨hnd₁, -, hdis⟩ := List.nodup_append.mp hnd
    have hnew : kv.1 ∉ ofPairs kvs := by
      intro hmem
      obtain ⟨v, hv⟩ := Option.isSome_iff_exists.mp (AList.lookup_isSome.mpr hmem)
      have hin := (lookup_ofPairs hnd₁ kv.1 v).mp hv
      exact hdis kv.1 (List.mem_map.mpr ⟨_, hin, rfl⟩) kv.1 (List.mem_singleton_self _) rfl
    rw [ofPairs_concat, tablelength_insert hnew, ih hnd₁, List.length_append,
      List.length_singleton]

section Border

variable {κ ν : Type*} [DecidableEq κ]

/-- The values `t[1], t[2], …` up to the first nil: what `ipairs(t)` visits.
`idx` embeds the positive integers into the keys; `fuel` bounds the walk and
is always taken as the number of pairs of the table. -/
def ipairsFrom (idx : ℕ → κ) (t : LuaTable κ ν) : ℕ → ℕ → List ν
  | 0, _ => []
  | fuel + 1, i =>
    match t.lookup (idx i) with
    | none => []
    | some v => v :: ipairsFrom idx t fuel (i + 1)

/-- `ipairs(t)`, as the list of the values it visits. -/
def ipairs (idx : ℕ → κ) (t : LuaTable κ ν) : List ν :=
  ipairsFrom idx t (tablelength t) 1

/-- `#t`: the first border of the table. -/
def border (idx : ℕ → κ) (t : LuaTable κ ν) : ℕ := (ipairs idx t).length

/-- A table without the key `1` has length zero, however many pairs it
holds. -/
theorem border_eq_zero {idx : ℕ → κ} {t : LuaTable κ ν} (h : idx 1 ∉ t) :
    border idx t = 0 := by
  have hnone : t.lookup (idx 1) = none := AList.lookup_eq_none.mpr h
  unfold border ipairs
  cases tablelength t with
  | zero => rfl
  | succ n => simp [ipairsFrom, hnone]

/-- Where exactly the `n` keys from `i` on are present, the walk visits their
values in order. -/
theorem ipairsFrom_spec (idx : ℕ → κ) (t : LuaTable κ ν) :
    ∀ (n fuel i : ℕ), n ≤ fuel → (∀ j < n, (t.lookup (idx (i + j))).isSome) →
      (n < fuel → t.lookup (idx (i + n)) = none) →
      (ipairsFrom idx t fuel i).length = n ∧
        ∀ j < n, (ipairsFrom idx t fuel i)[j]? = t.lookup (idx (i + j)) := by
  intro n
  induction n with
  | zero =>
    intro fuel i _ _ hend
    cases fuel with
    | zero => exact ⟨rfl, by simp⟩
    | succ fuel =>
      have hnone : t.lookup (idx i) = none := hend (Nat.succ_pos _)
      simp [ipairsFrom, hnone]
  | succ n ih =>
    intro fuel i hle hsome hend
    cases fuel with
    | zero => omega
    | succ fuel =>
      obtain ⟨v, hv⟩ := Option.isSome_iff_exists.mp (hsome 0 (Nat.succ_pos n))
      have hshift : ∀ j, i + 1 + j = i + (j + 1) := by omega
      obtain ⟨hlen, hget⟩ := ih fuel (i + 1) (by omega)
        (fun j hj => by rw [hshift]; exact hsome (j + 1) (by omega))
        (fun hlt => by rw [hshift]; exact hend (by omega))
      have hcons : ipairsFrom idx t (fuel + 1) i = v :: ipairsFrom idx t fuel (i + 1) := by
        have hv' : t.lookup (idx i) = some v := hv
        simp only [ipairsFrom, hv']
      rw [hcons]
      refine ⟨by rw [List.length_cons, hlen], ?_⟩
      intro j hj
      cases j with
      | zero => rw [List.getElem?_cons_zero]; exact hv.symm
      | succ j => rw [List.getElem?_cons_succ, hget j (by omega), hshift]

end Border

/-- `string.sub(s, i, j)` for `1 ≤ i`; other start indices count from the end
in Lua and are mapped as it does. -/
def strSub (s : LString) (i j : ℤ) : LString :=
  let i' := if i < 0 then max (i + s.length + 1) 1 else max i 1
  let j' := if j < 0 then j + s.length + 1 else min j s.length
  if i' ≤ j' then (s.drop (i' - 1).toNat).take (j' - i' + 1).toNat else []

/-- On a string cut in three, the middle part is read back by its bounds. -/
theorem strSub_middle (a b c : LString) :
    strSub (a ++ b ++ c) (a.length + 1) (a.length + b.length) = b := by
  unfold strSub
  have hi : ¬ ((a.length : ℤ) + 1 < 0) := by omega
  have hj : ¬ ((a.length : ℤ) + b.length < 0) := by omega
  have hlen : ((a ++ b ++ c).length : ℤ) = a.length + b.length + c.length := by
    simp [add_assoc]
  simp only [if_neg hi, if_neg hj]
  have hmax : max ((a.length : ℤ) + 1) 1 = a.length + 1 := by omega
  have hmin : min ((a.length : ℤ) + b.length) ((a ++ b ++ c).length : ℤ)
      = a.length + b.length := by omega
  rw [hmax, hmin]
  have hdrop : ((a.length : ℤ) + 1 - 1).toNat = a.length := by omega
  have htake : ((a.length : ℤ) + b.length - (a.length + 1) + 1).toNat = b.length := by omega
  rw [hdrop, htake, List.append_assoc, List.drop_left, List.take_left]
  split
  · rfl
  next h =>
    -- only an empty middle leaves the bounds crossed
    have hb : b.length = 0 := by omega
    exact (List.length_eq_zero_iff.mp hb).symm

/-! ## Lists side by side -/

/-- Related lists agree place by place. -/
theorem forall₂_getElem? {α β : Type*} {R : α → β → Prop} {xs : List α} {ys : List β}
    (h : List.Forall₂ R xs ys) {i : ℕ} {x : α} (hx : xs[i]? = some x) :
    ∃ y, ys[i]? = some y ∧ R x y := by
  induction h generalizing i with
  | nil => simp at hx
  | @cons a c _ _ hac _ ih =>
    cases i with
    | zero =>
      rw [List.getElem?_cons_zero, Option.some.injEq] at hx
      exact ⟨c, rfl, hx ▸ hac⟩
    | succ i => exact ih hx

end Lua2SC.Lua

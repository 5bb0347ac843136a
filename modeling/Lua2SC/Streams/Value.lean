import Lua2SC.Lib.Source

/-!
# What streams give

A stream gives numbers, strings, booleans and tables: lists (`TUPLE`, `Pclump`)
and events (`PS`, `MERGE`), which are tables with named fields. A table is known by
its address; what is in it stands in the `World`, as a list of fields in the order
in which they came in, because streams write into the tables that other streams
give them. Functions and other objects are known by their identity.

Every stream is passed the player that asks for the value, `e`. The streams
themselves use two of its fields: `inPS` counts the `PS` streams that are being
evaluated one inside another, `tmplist` is the event that the outermost of them
is building. The `World` is these two fields and the tables.
-/

namespace Lua2SC.Streams

open Lua2SC.Lua Lua2SC.Sources

/-- The key of a field. -/
inductive Field where
  | name (s : LString)
  | index (i : ℕ)
deriving DecidableEq, Repr

/-- A value other than nil. -/
inductive Value (R : Type) where
  | num (x : R)
  | str (s : LString)
  | bool (b : Bool)
  | ref (id : ℕ)
  | table (address : ℕ)
deriving DecidableEq, Repr

/-- The fields of a table. -/
abbrev Fields (R : Type) := List (Field × Value R)

variable {R : Type}

namespace Fields

/-- `t[k]`. -/
def get (t : Fields R) (k : Field) : Option (Value R) :=
  (t.find? fun kv => kv.1 = k).map Prod.snd

/-- `t[k] = v`. -/
def set (t : Fields R) (k : Field) (v : Option (Value R)) : Fields R :=
  match v with
  | none => t.filter fun kv => kv.1 ≠ k
  | some v =>
    if t.any fun kv => kv.1 = k then t.map fun kv => if kv.1 = k then (k, v) else kv
    else t ++ [(k, v)]

/-- `mergeTable(a, b)`, as far as what is in `a` afterwards. -/
def merge (a b : Fields R) : Fields R := b.foldl (fun a kv => set a kv.1 (some kv.2)) a

end Fields

/-- A Lua condition: false fails. -/
def Value.truthy : Value R → Bool
  | .bool b => b
  | _ => true

/-- The player, as far as streams use it, and the tables. -/
structure World (R : Type) where
  inPS : Option ℤ
  tmplist : Option ℕ
  tables : List (Fields R)
deriving DecidableEq, Repr

namespace World

variable (e : World R)

/-- `{...}`: the address of a new table. -/
def new (t : Fields R) : ℕ × World R :=
  (e.tables.length, { e with tables := e.tables ++ [t] })

/-- What is in a table. -/
def fields (address : ℕ) : Fields R := e.tables[address]?.getD []

/-- Other fields for a table. -/
def put (address : ℕ) (t : Fields R) : World R := { e with tables := e.tables.set address t }

/-- `v[k]`. -/
def index (v : Value R) (k : Field) : Except Halt (Option (Value R)) :=
  match v with
  | .table a => .ok (Fields.get (e.fields a) k)
  | .str _ => .ok none
  | _ => .error (.error "attempt to index a value")

/-- `v[k] = x`. -/
def newindex (v : Value R) (k : Field) (x : Option (Value R)) : Except Halt (World R) :=
  match v with
  | .table a => .ok (e.put a (Fields.set (e.fields a) k x))
  | _ => .error (.error "attempt to index a value")

/-- `pairs(v)`. -/
def pairs : Option (Value R) → Except Halt (Fields R)
  | some (.table a) => .ok (e.fields a)
  | _ => .error (.error "bad argument #1 to 'pairs' (table expected)")

/-- `v[k]` as a number. -/
def number (v : Value R) (k : String) : Except Halt R := do
  match ← e.index v (.name (ascii k)) with
  | some (.num x) => return x
  | _ => .error (.error "attempt to perform arithmetic on a field")

/-- `v[k] = x` for a number. -/
def setNumber (v : Value R) (k : String) (x : R) : Except Halt (World R) :=
  e.newindex v (.name (ascii k)) (some (.num x))

/-- The tables of `own` as they are in `e₀`. -/
def rebuilt (e₀ : World R) (own : List ℕ) : World R :=
  own.foldl (fun e a => e.put a (e₀.fields a)) e

end World

/-! ## Reading what was written -/

namespace Fields

theorem get_append (a b : Fields R) (j : Field) : get (a ++ b) j = (get a j).or (get b j) := by
  unfold get
  rw [List.find?_append]
  cases a.find? fun kv => kv.1 = j <;> rfl

theorem get_eq_none {t : Fields R} {k : Field} : get t k = none ↔ ∀ kv ∈ t, kv.1 ≠ k := by
  unfold get
  simp

/-- A field that was there is changed. -/
theorem get_map (t : Fields R) (k : Field) (v : Value R) (j : Field) :
    get (t.map fun kv => if kv.1 = k then (k, v) else kv) j =
      if j = k then (get t k).map fun _ => v else get t j := by
  induction t with
  | nil => simp [get]
  | cons kv t ih =>
    unfold get at ih ⊢
    by_cases hk : kv.1 = k <;> by_cases hj : kv.1 = j <;> grind

/-- A field that was there is taken out. -/
theorem get_filter (t : Fields R) (k j : Field) :
    get (t.filter fun kv => kv.1 ≠ k) j = if j = k then none else get t j := by
  induction t with
  | nil => simp [get]
  | cons kv t ih =>
    unfold get at ih ⊢
    by_cases hk : kv.1 = k <;> by_cases hj : kv.1 = j <;> grind

/-- **A field reads back**, and the others are as before. -/
theorem get_set (t : Fields R) (k : Field) (v : Option (Value R)) (j : Field) :
    get (set t k v) j = if j = k then v else get t j := by
  cases v with
  | none => exact get_filter t k j
  | some v =>
    unfold set
    dsimp only
    split
    next hany =>
      rw [get_map]
      obtain ⟨w, hw⟩ : ∃ w, get t k = some w := by
        refine Option.ne_none_iff_exists'.mp fun hnone => ?_
        obtain ⟨kv, hkv, hk⟩ := List.any_eq_true.mp hany
        exact get_eq_none.mp hnone kv hkv (of_decide_eq_true hk)
      rw [hw]
      rfl
    next hnew =>
      rw [get_append]
      have hnone : get t k = none :=
        get_eq_none.mpr fun kv hkv hk => hnew (List.any_eq_true.mpr ⟨kv, hkv, decide_eq_true hk⟩)
      by_cases hj : j = k
      · rw [if_pos hj, hj, hnone]
        simp [get]
      · rw [if_neg hj]
        simp [get, Ne.symm hj]

/-- No key comes twice after a field is written. -/
theorem nodup_set {t : Fields R} (h : (t.map Prod.fst).Nodup) (k : Field)
    (v : Option (Value R)) : ((set t k v).map Prod.fst).Nodup := by
  cases v with
  | none => exact h.sublist (List.filter_sublist.map Prod.fst)
  | some v =>
    unfold set
    dsimp only
    split
    next =>
      have hkeys : (t.map fun kv => if kv.1 = k then (k, v) else kv).map Prod.fst =
          t.map Prod.fst := by
        rw [List.map_map]
        refine List.map_congr_left fun kv _ => ?_
        by_cases hk : kv.1 = k <;> simp [hk]
      rw [hkeys]
      exact h
    next hnew =>
      rw [List.map_append]
      refine List.nodup_append.mpr ⟨h, List.nodup_singleton k, ?_⟩
      rintro a ha b hb rfl
      obtain ⟨kv, hkv, rfl⟩ := List.mem_map.mp ha
      exact hnew (List.any_eq_true.mpr ⟨kv, hkv, decide_eq_true (List.mem_singleton.mp hb)⟩)

/-- The fields of `b` are the ones that count. -/
theorem get_merge (a : Fields R) {b : Fields R} (h : (b.map Prod.fst).Nodup) (j : Field) :
    get (merge a b) j = (get b j).or (get a j) := by
  unfold merge
  induction b generalizing a with
  | nil => rfl
  | cons kv b ih =>
    rw [List.map_cons, List.nodup_cons] at h
    rw [List.foldl_cons, ih _ h.2, get_set]
    by_cases hj : j = kv.1
    · have hnone : get b j = none :=
        get_eq_none.mpr fun kv' hkv' hk => h.1 (hj ▸ hk ▸ List.mem_map_of_mem hkv')
      rw [hnone, if_pos hj]
      simp [get, hj]
    · rw [if_neg hj]
      have hget : get (kv :: b) j = get b j := by simp [get, Ne.symm hj]
      rw [hget]

end Fields

namespace World

variable {e : World R} {a b : ℕ} {t : Fields R}

theorem fields_new : (e.new t).2.fields e.tables.length = t := by
  simp [fields, new]

theorem fields_put (ha : a < e.tables.length) : (e.put a t).fields a = t := by
  simp [fields, put, ha]

theorem fields_put_ne (h : b ≠ a) : (e.put a t).fields b = e.fields b := by
  simp [fields, put, List.getElem?_set_ne (Ne.symm h)]

theorem put_fields (e : World R) (a : ℕ) : e.put a (e.fields a) = e := by
  have hset : e.tables.set a (e.tables[a]?.getD []) = e.tables := by
    rcases Nat.lt_or_ge a e.tables.length with ha | ha
    · rw [List.getElem?_eq_getElem ha]
      exact List.set_getElem_self ha
    · exact List.set_eq_of_length_le ha
  rw [put, fields, hset]

/-- Tables that have not been changed need not be built again. -/
theorem rebuilt_eq {e₀ : World R} {own : List ℕ} (h : ∀ a ∈ own, e.fields a = e₀.fields a) :
    e.rebuilt e₀ own = e := by
  unfold rebuilt
  induction own with
  | nil => rfl
  | cons a own ih =>
    rw [List.foldl_cons, ← h a List.mem_cons_self, put_fields]
    exact ih fun b hb => h b (List.mem_cons_of_mem a hb)

end World

end Lua2SC.Streams

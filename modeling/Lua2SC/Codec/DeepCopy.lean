import Lua2SC.Lib.Lua

/-!
# `utils.lua`: `deepcopy` and `deepcopy_values`

Both copy a value and all that is in it, through tables that are shared or contain themselves:
every table that is met gets one new table, written down in `lookup_table` before it is filled.
`deepcopy` goes through the keys too, `deepcopy_values` keeps them. Metatables are not copied. A
function is copied by `copy_function`, once for each place it stands at: the copy has the same code
and upvalues, but the global environment, and a function of C cannot be copied.

A copy is a graph of new tables with the same shape as the graph of the old ones (`IsCopy`), and
the old tables and functions stay as they are. Copying a value always ends, with a copy or, if there
is a function of C in it, with an error (`deepcopy_isCopy`).

What carries it is the state in the middle of the copying (`Inv`): the new tables are those of
`lookup_table`, one for each. A call changes no table that was there before it, and fills the new
tables it makes (`Post`), while the tables being filled by the calls around it grow key by key
(`Filling`).
-/

namespace Lua2SC.DeepCopy

open Lua2SC.Lua (LuaM)

/-! ## Values -/

/-- A value that is not nil: tables and functions are references. -/
inductive Value (A : Type) where
  | other (a : A)
  | func (f : ℕ)
  | table (i : ℕ)
deriving DecidableEq, Repr

/-- A table, with its pairs in the order of `pairs`. -/
structure Table (A : Type) where
  pairs : List (Value A × Value A)
  metatable : Option ℕ
deriving Repr

/-- A function, with the table of its environment. -/
inductive Func (A C : Type) where
  | lua (code : C) (upvalues : List (Value A)) (env : ℕ)
  | c (address : ℕ)
deriving Repr

structure Heap (A C : Type) where
  tables : List (Table A)
  funcs : List (Func A C)
deriving Repr

variable {A C : Type}

/-- The value is a table or a function there is, or something else. -/
def Heap.Has (h : Heap A C) : Value A → Prop
  | .other _ => True
  | .func f => f < h.funcs.length
  | .table i => i < h.tables.length

/-- Every table has each key once, and what is in it is there. -/
structure Heap.Closed (h : Heap A C) : Prop where
  nodup : ∀ t ∈ h.tables, (t.pairs.map Prod.fst).Nodup
  has : ∀ t ∈ h.tables, ∀ p ∈ t.pairs, h.Has p.1 ∧ h.Has p.2

/-! ## Copying -/

/-- The heap in the middle of the copying. -/
structure Copying (A C : Type) extends Heap A C where
  lookup_table : ℕ → Option ℕ

section Functions

variable [DecidableEq A]

/-- `t[k] = v` -/
def Table.set (t : Table A) (k v : Value A) : Table A :=
  if k ∈ t.pairs.map Prod.fst then
    { t with pairs := t.pairs.map fun p => if p.1 = k then (k, v) else p }
  else { t with pairs := t.pairs ++ [(k, v)] }

namespace Copying

/-- `new_table = {}`, `lookup_table[object] = new_table`. -/
def newTable (s : Copying A C) (i : ℕ) : Copying A C where
  tables := s.tables ++ [⟨[], none⟩]
  funcs := s.funcs
  lookup_table := Function.update s.lookup_table i (some s.tables.length)

/-- `new_table[k] = v` -/
def setField (s : Copying A C) (j : ℕ) (k v : Value A) : Copying A C :=
  { s with tables := s.tables.modify j fun t => t.set k v }

/-- `setmetatable(new_table, m)` -/
def setMetatable (s : Copying A C) (j : ℕ) (m : Option ℕ) : Copying A C :=
  { s with tables := s.tables.modify j fun t => { t with metatable := m } }

end Copying

/-- `copy_function(f)`: what `loadstring` makes has the global environment. -/
def copy_function (globals : ℕ) (s : Copying A C) (f : ℕ) : LuaM (Value A × Copying A C) :=
  match s.funcs[f]? with
  | some (.lua code upvalues _) =>
    .ok (.func s.funcs.length, { s with funcs := s.funcs ++ [.lua code upvalues globals] })
  | _ => .error "unable to dump given function"

/-- The new key, which is a copy in `deepcopy` only. -/
def copyKey (keys : Bool) (copy : Value A → Copying A C → LuaM (Value A × Copying A C))
    (k : Value A) (s : Copying A C) : LuaM (Value A × Copying A C) :=
  if keys then copy k s else .ok (k, s)

/-- One turn of the loop. -/
def copyPair (keys : Bool) (copy : Value A → Copying A C → LuaM (Value A × Copying A C)) (j : ℕ)
    (s : Copying A C) (p : Value A × Value A) : LuaM (Copying A C) := do
  let key ← copyKey keys copy p.1 s
  let value ← copy p.2 key.2
  .ok (value.2.setField j key.1 value.1)

/-- `_copy` -/
def copy (keys : Bool) (globals : ℕ) :
    ℕ → Value A → Copying A C → LuaM (Value A × Copying A C)
  | 0, _, _ => .error "stack overflow"
  | _ + 1, .other a, s => .ok (.other a, s)
  | _ + 1, .func f, s => copy_function globals s f
  | n + 1, .table i, s =>
    match s.lookup_table i with
    | some j => .ok (.table j, s)
    | none => do
      let j := s.tables.length
      let object := (s.tables[i]?).getD ⟨[], none⟩
      let s ← object.pairs.foldlM (copyPair keys (copy keys globals n) j) (s.newTable i)
      .ok (.table j, s.setMetatable j object.metatable)

/-- The call of `_copy`, no deeper than there are tables. -/
def copyObject (keys : Bool) (globals : ℕ) (h : Heap A C) (object : Value A) :
    LuaM (Value A × Heap A C) := do
  let r ← copy keys globals (h.tables.length + 1) object ⟨h, fun _ => none⟩
  .ok (r.1, r.2.toHeap)

/-- `deepcopy(object)` -/
def deepcopy (globals : ℕ) (h : Heap A C) (object : Value A) : LuaM (Value A × Heap A C) :=
  copyObject true globals h object

/-- `deepcopy_values(object)` -/
def deepcopy_values (globals : ℕ) (h : Heap A C) (object : Value A) :
    LuaM (Value A × Heap A C) :=
  copyObject false globals h object

end Functions

/-! ## What a copy is -/

/-- What is met from a value. -/
inductive Reach (keys : Bool) (h : Heap A C) (object : Value A) : Value A → Prop where
  | root : Reach keys h object object
  | value {i : ℕ} {t : Table A} {p : Value A × Value A} : Reach keys h object (.table i) →
      h.tables[i]? = some t → p ∈ t.pairs → Reach keys h object p.2
  | key {i : ℕ} {t : Table A} {p : Value A × Value A} : keys = true →
      Reach keys h object (.table i) → h.tables[i]? = some t → p ∈ t.pairs →
      Reach keys h object p.1

/-- A value of the copy, with the tables `F` stands for. -/
def Copied (globals : ℕ) (h h' : Heap A C) (F : ℕ → Option ℕ) : Value A → Value A → Prop
  | .other a, v' => v' = .other a
  | .table i, v' => ∃ j, F i = some j ∧ v' = .table j
  | .func f, v' => ∃ g code upvalues env, v' = .func g ∧ h.funcs.length ≤ g ∧
      h.funcs[f]? = some (.lua code upvalues env) ∧
      h'.funcs[g]? = some (.lua code upvalues globals)

/-- A pair of a table of the copy. -/
def PairCopied (keys : Bool) (globals : ℕ) (h h' : Heap A C) (F : ℕ → Option ℕ)
    (p p' : Value A × Value A) : Prop :=
  (if keys then Copied globals h h' F p.1 p'.1 else p'.1 = p.1) ∧ Copied globals h h' F p.2 p'.2

/-- `v'` in `h'` is a copy of `v` in `h`. -/
structure IsCopy (keys : Bool) (globals : ℕ) (h : Heap A C) (v : Value A) (h' : Heap A C)
    (v' : Value A) (F : ℕ → Option ℕ) : Prop where
  /-- The old tables and functions are as before. -/
  tables : h.tables <+: h'.tables
  funcs : h.funcs <+: h'.funcs
  /-- There is a table for each table that is met, no table for two, and no other new table. -/
  reached : ∀ i, (∃ j, F i = some j) ↔ Reach keys h v (.table i)
  injective : ∀ i i' j, F i = some j → F i' = some j → i = i'
  onto : ∀ j, (∃ i, F i = some j) ↔ h.tables.length ≤ j ∧ j < h'.tables.length
  root : Copied globals h h' F v v'
  /-- It has the copies of the pairs, and the same metatable. -/
  pairs : ∀ i j t, F i = some j → h.tables[i]? = some t → ∃ t', h'.tables[j]? = some t' ∧
    t'.metatable = t.metatable ∧ List.Forall₂ (PairCopied keys globals h h' F) t.pairs t'.pairs
  /-- Everything in the new tables is there, each key once. -/
  closed : h'.Closed

/-! ## In the middle -/

section Invariants

variable {keys : Bool} {globals : ℕ} {h : Heap A C} {object : Value A}

/-- The tables and functions from before, and the tables of `lookup_table`, which are of what is
met. -/
structure Inv (keys : Bool) (h : Heap A C) (object : Value A) (s : Copying A C) : Prop where
  tables : ∀ m < h.tables.length, s.tables[m]? = h.tables[m]?
  funcs : h.funcs <+: s.funcs
  reached : ∀ i j, s.lookup_table i = some j → Reach keys h object (.table i)
  injective : ∀ i i' j, s.lookup_table i = some j → s.lookup_table i' = some j → i = i'
  onto : ∀ j, (∃ i, s.lookup_table i = some j) ↔ h.tables.length ≤ j ∧ j < s.tables.length
  le : h.tables.length ≤ s.tables.length

/-- What is copied stays copied. -/
structure Ext (s s' : Copying A C) : Prop where
  lookup_table : ∀ i j, s.lookup_table i = some j → s'.lookup_table i = some j
  funcs : s.funcs <+: s'.funcs
  le : s.tables.length ≤ s'.tables.length

/-- The pairs of a new table, as far as they are copied. -/
structure Filling (keys : Bool) (globals : ℕ) (h : Heap A C) (s : Copying A C)
    (pre : List (Value A × Value A)) (t' : Table A) : Prop where
  pairs : List.Forall₂ (PairCopied keys globals h s.toHeap s.lookup_table) pre t'.pairs
  nodup : (t'.pairs.map Prod.fst).Nodup

/-- The new table of `i` has everything. -/
def Done (keys : Bool) (globals : ℕ) (h : Heap A C) (s : Copying A C) (i : ℕ) : Prop :=
  ∃ j t t', s.lookup_table i = some j ∧ h.tables[i]? = some t ∧ s.tables[j]? = some t' ∧
    t'.metatable = t.metatable ∧ Filling keys globals h s t.pairs t'

/-- What a call of `_copy` does. -/
structure Post (keys : Bool) (globals : ℕ) (h : Heap A C) (object : Value A) (s : Copying A C)
    (v v' : Value A) (s' : Copying A C) : Prop where
  inv : Inv keys h object s'
  ext : Ext s s'
  same : ∀ m < s.tables.length, s'.tables[m]? = s.tables[m]?
  copied : Copied globals h s'.toHeap s'.lookup_table v v'
  fresh : ∀ g, v' = .func g → s.funcs.length ≤ g
  done : ∀ i, s.lookup_table i = none → s'.lookup_table i ≠ none → Done keys globals h s' i

/-- A function that cannot be copied. -/
def HasC (keys : Bool) (h : Heap A C) (object : Value A) : Prop :=
  ∃ f address, Reach keys h object (.func f) ∧ h.funcs[f]? = some (.c address)

theorem Ext.refl (s : Copying A C) : Ext s s := ⟨fun _ _ h => h, List.prefix_rfl, le_refl _⟩

theorem Ext.trans {s s' s'' : Copying A C} (h₁ : Ext s s') (h₂ : Ext s' s'') : Ext s s'' where
  lookup_table i j hi := h₂.lookup_table i j (h₁.lookup_table i j hi)
  funcs := h₁.funcs.trans h₂.funcs
  le := h₁.le.trans h₂.le

theorem Copied.mono {s s' : Copying A C} (hext : Ext s s') {v v' : Value A}
    (hv : Copied globals h s.toHeap s.lookup_table v v') :
    Copied globals h s'.toHeap s'.lookup_table v v' := by
  cases v with
  | other a => exact hv
  | table i =>
    obtain ⟨j, hj, rfl⟩ := hv
    exact ⟨j, hext.lookup_table i j hj, rfl⟩
  | func f =>
    obtain ⟨g, code, upvalues, env, rfl, hle, hf, hg⟩ := hv
    refine ⟨g, code, upvalues, env, rfl, hle, hf, ?_⟩
    obtain ⟨rest, hrest⟩ := hext.funcs
    show s'.funcs[g]? = _
    rw [← hrest, List.getElem?_append_left (List.getElem?_eq_some_iff.mp hg).1]
    exact hg

theorem PairCopied.mono {s s' : Copying A C} (hext : Ext s s') {p p' : Value A × Value A}
    (hp : PairCopied keys globals h s.toHeap s.lookup_table p p') :
    PairCopied keys globals h s'.toHeap s'.lookup_table p p' := by
  obtain ⟨hkey, hvalue⟩ := hp
  refine ⟨?_, hvalue.mono hext⟩
  cases keys with
  | false => exact hkey
  | true => exact Copied.mono hext hkey

theorem Filling.mono {s s' : Copying A C} (hext : Ext s s') {pre : List (Value A × Value A)}
    {t' : Table A} (hfill : Filling keys globals h s pre t') :
    Filling keys globals h s' pre t' :=
  ⟨hfill.pairs.imp fun _ _ hp => hp.mono hext, hfill.nodup⟩

/-- A table that is done stays so if nobody writes to it. -/
theorem Done.mono {s s' : Copying A C} (hext : Ext s s') {i : ℕ}
    (hdone : Done keys globals h s i)
    (hsame : ∀ j, s.lookup_table i = some j → s'.tables[j]? = s.tables[j]?) :
    Done keys globals h s' i := by
  obtain ⟨j, t, t', hj, ht, ht', hmeta, hfill⟩ := hdone
  exact ⟨j, t, t', hext.lookup_table i j hj, ht, (hsame j hj).trans ht', hmeta, hfill.mono hext⟩

theorem Inv.lt {s : Copying A C} (hinv : Inv keys h object s) {i j : ℕ}
    (hj : s.lookup_table i = some j) : j < s.tables.length :=
  ((hinv.onto j).mp ⟨i, hj⟩).2

/-! ### Other values -/

theorem post_same {s : Copying A C} (hinv : Inv keys h object s) {v v' : Value A}
    (hcopied : Copied globals h s.toHeap s.lookup_table v v') (hv : ∀ g, v' ≠ .func g) :
    Post keys globals h object s v v' s where
  inv := hinv
  ext := Ext.refl s
  same _ _ := rfl
  copied := hcopied
  fresh g hg := absurd hg (hv g)
  done _ hnone hsome := absurd hnone hsome

theorem post_copy_function {s : Copying A C} (hinv : Inv keys h object s) {f : ℕ}
    {code : C} {upvalues : List (Value A)} {env : ℕ}
    (hf : h.funcs[f]? = some (.lua code upvalues env)) :
    Post keys globals h object s (.func f) (.func s.funcs.length)
      { s with funcs := s.funcs ++ [.lua code upvalues globals] } where
  inv := ⟨hinv.tables, hinv.funcs.trans (List.prefix_append _ _), hinv.reached, hinv.injective,
    hinv.onto, hinv.le⟩
  ext := ⟨fun _ _ hi => hi, List.prefix_append _ _, le_refl _⟩
  same _ _ := rfl
  copied := by
    refine ⟨s.funcs.length, code, upvalues, env, rfl, hinv.funcs.length_le, hf, ?_⟩
    exact List.getElem?_concat_length
  fresh g hg := by
    cases hg
    exact le_refl _
  done _ hnone hsome := absurd hnone hsome

/-! ### A new table -/

theorem getElem?_newTable_lt {s : Copying A C} {i m : ℕ} (hm : m < s.tables.length) :
    (s.newTable i).tables[m]? = s.tables[m]? :=
  List.getElem?_append_left hm

theorem length_newTable (s : Copying A C) (i : ℕ) :
    (s.newTable i).tables.length = s.tables.length + 1 :=
  List.length_append

theorem lookup_newTable_self (s : Copying A C) (i : ℕ) :
    (s.newTable i).lookup_table i = some s.tables.length :=
  Function.update_self ..

theorem lookup_newTable_ne (s : Copying A C) {i i' : ℕ} (hne : i' ≠ i) :
    (s.newTable i).lookup_table i' = s.lookup_table i' :=
  Function.update_of_ne hne ..

theorem ext_newTable {s : Copying A C} {i : ℕ} (hnew : s.lookup_table i = none) :
    Ext s (s.newTable i) where
  lookup_table i' j hj := by
    have hne : i' ≠ i := by
      intro heq
      rw [heq, hnew] at hj
      cases hj
    rwa [lookup_newTable_ne s hne]
  funcs := List.prefix_rfl
  le := by
    rw [length_newTable]
    exact Nat.le_succ _

theorem inv_newTable {s : Copying A C} (hinv : Inv keys h object s) {i : ℕ}
    (hnew : s.lookup_table i = none) (hreach : Reach keys h object (.table i)) :
    Inv keys h object (s.newTable i) where
  tables m hm := (getElem?_newTable_lt (hm.trans_le hinv.le)).trans (hinv.tables m hm)
  funcs := hinv.funcs
  reached i' j hj := by
    by_cases heq : i' = i
    · exact heq ▸ hreach
    · exact hinv.reached i' j ((lookup_newTable_ne s heq).symm.trans hj)
  injective i₁ i₂ j h₁ h₂ := by
    -- the new table is not one of the others
    have hother : ∀ i', i' ≠ i → (s.newTable i).lookup_table i' ≠ some s.tables.length := by
      intro i' hne hj
      rw [lookup_newTable_ne s hne] at hj
      exact lt_irrefl _ (hinv.lt hj)
    have hown := lookup_newTable_self s i
    by_cases heq₁ : i₁ = i <;> by_cases heq₂ : i₂ = i
    · exact heq₁.trans heq₂.symm
    · rw [heq₁, hown] at h₁
      exact absurd (h₂.trans h₁.symm) (hother i₂ heq₂)
    · rw [heq₂, hown] at h₂
      exact absurd (h₁.trans h₂.symm) (hother i₁ heq₁)
    · rw [lookup_newTable_ne s heq₁] at h₁
      rw [lookup_newTable_ne s heq₂] at h₂
      exact hinv.injective i₁ i₂ j h₁ h₂
  onto j := by
    rw [length_newTable]
    constructor
    · intro ⟨i', hj⟩
      by_cases heq : i' = i
      · rw [heq, lookup_newTable_self] at hj
        obtain rfl := Option.some.inj hj
        exact ⟨hinv.le, Nat.lt_succ_self _⟩
      · rw [lookup_newTable_ne s heq] at hj
        have hold := (hinv.onto j).mp ⟨i', hj⟩
        exact ⟨hold.1, hold.2.trans (Nat.lt_succ_self _)⟩
    · intro ⟨hge, hlt⟩
      rcases Nat.lt_succ_iff_lt_or_eq.mp hlt with hlt | rfl
      · obtain ⟨i', hj⟩ := (hinv.onto j).mpr ⟨hge, hlt⟩
        exact ⟨i', (ext_newTable hnew).lookup_table i' j hj⟩
      · exact ⟨i, lookup_newTable_self s i⟩
  le := hinv.le.trans (ext_newTable hnew).le

/-! ### The loop over the pairs -/

/-- The new table of a call is filled, the new tables of the calls within are done, and the other
tables have not changed. -/
structure Loop (keys : Bool) (globals : ℕ) (h : Heap A C) (object : Value A) (i j : ℕ)
    (s₀ : Copying A C) (pre : List (Value A × Value A)) (s : Copying A C) : Prop where
  inv : Inv keys h object s
  ext : Ext s₀ s
  own : s.lookup_table i = some j
  table : ∃ t', s.tables[j]? = some t' ∧ Filling keys globals h s pre t'
  same : ∀ m < s₀.tables.length, m ≠ j → s.tables[m]? = s₀.tables[m]?
  done : ∀ i', s₀.lookup_table i' = none → s.lookup_table i' ≠ none → Done keys globals h s i'

theorem loop_newTable {s : Copying A C} (hinv : Inv keys h object s) {i : ℕ}
    (hnew : s.lookup_table i = none) (hreach : Reach keys h object (.table i)) :
    Loop keys globals h object i s.tables.length (s.newTable i) [] (s.newTable i) where
  inv := inv_newTable hinv hnew hreach
  ext := Ext.refl _
  own := lookup_newTable_self s i
  table := ⟨⟨[], none⟩, List.getElem?_concat_length, List.Forall₂.nil, List.nodup_nil⟩
  same _ _ _ := rfl
  done _ hnone hsome := absurd hnone hsome

/-- A value has one key in the copy, and a key one value. -/
theorem Copied.left_unique {s s' : Copying A C} (hext : Ext s s') (hinv : Inv keys h object s')
    {k₁ k₂ k' : Value A} (h₁ : Copied globals h s.toHeap s.lookup_table k₁ k')
    (h₂ : Copied globals h s'.toHeap s'.lookup_table k₂ k')
    (hfresh : ∀ g, k' = .func g → s.funcs.length ≤ g) : k₁ = k₂ := by
  cases k₁ with
  | other a =>
    obtain rfl := h₁
    cases k₂ with
    | other b => exact h₂
    | table i => obtain ⟨_, _, h₂⟩ := h₂; cases h₂
    | func f => obtain ⟨_, _, _, _, h₂, _⟩ := h₂; cases h₂
  | table i =>
    obtain ⟨j, hj, rfl⟩ := h₁
    cases k₂ with
    | other b => cases h₂
    | table i' =>
      obtain ⟨j', hj', hjj⟩ := h₂
      cases hjj
      rw [hinv.injective i i' j (hext.lookup_table i j hj) hj']
    | func f => obtain ⟨_, _, _, _, h₂, _⟩ := h₂; cases h₂
  | func f =>
    -- the copy of a function is made for one place
    obtain ⟨g, _, _, _, rfl, _, _, hg⟩ := h₁
    exact absurd (List.getElem?_eq_some_iff.mp hg).1 (not_lt.mpr (hfresh g rfl))

/-- What is known when the key of a pair is copied. -/
structure KeyPost (keys : Bool) (globals : ℕ) (h : Heap A C) (object : Value A)
    (s : Copying A C) (k k' : Value A) (s₁ : Copying A C) : Prop where
  inv : Inv keys h object s₁
  ext : Ext s s₁
  same : ∀ m < s.tables.length, s₁.tables[m]? = s.tables[m]?
  copied : if keys then Copied globals h s₁.toHeap s₁.lookup_table k k' else k' = k
  fresh : keys = true → ∀ g, k' = .func g → s.funcs.length ≤ g
  done : ∀ i, s.lookup_table i = none → s₁.lookup_table i ≠ none → Done keys globals h s₁ i

theorem KeyPost.key_fresh {s s₁ : Copying A C} {k k' : Value A}
    (hkey : KeyPost keys globals h object s k k' s₁) {pre : List (Value A × Value A)}
    {t' : Table A} (hfill : Filling keys globals h s pre t') (hk : k ∉ pre.map Prod.fst) :
    k' ∉ t'.pairs.map Prod.fst := by
  intro hmem
  obtain ⟨p', hp', rfl⟩ := List.mem_map.mp hmem
  obtain ⟨n, hn⟩ := List.mem_iff_getElem?.mp hp'
  have hlt := (List.getElem?_eq_some_iff.mp hn).1
  rw [← hfill.pairs.length_eq] at hlt
  have hpair := hfill.pairs.get hlt (hfill.pairs.length_eq ▸ hlt)
  have hp'n : t'.pairs.get ⟨n, hfill.pairs.length_eq ▸ hlt⟩ = p' :=
    (List.getElem?_eq_some_iff.mp hn).2
  rw [hp'n] at hpair
  -- then the pair before has the key
  have hkk : (pre.get ⟨n, hlt⟩).1 = k := by
    cases hkeys : keys with
    | false =>
      have hcopied := hkey.copied
      have hpairkey := hpair.1
      rw [hkeys] at hcopied hpairkey
      exact hpairkey.symm.trans hcopied
    | true =>
      have hcopied := hkey.copied
      have hpairkey := hpair.1
      rw [hkeys] at hcopied hpairkey
      exact Copied.left_unique hkey.ext hkey.inv hpairkey hcopied (hkey.fresh hkeys)
  exact hk (List.mem_map.mpr ⟨_, List.get_mem _ _, hkk⟩)

section Step

/-- Writing to one new table. -/
theorem inv_modify {s : Copying A C} (hinv : Inv keys h object s) {j : ℕ}
    (hj : h.tables.length ≤ j) (f : Table A → Table A) :
    Inv keys h object { s with tables := s.tables.modify j f } where
  tables m hm := (List.getElem?_modify_ne f _ (hm.trans_le hj).ne').trans (hinv.tables m hm)
  funcs := hinv.funcs
  reached := hinv.reached
  injective := hinv.injective
  onto j' := by
    show _ ↔ _ ∧ j' < (s.tables.modify j f).length
    rw [List.length_modify]
    exact hinv.onto j'
  le := by
    show _ ≤ (s.tables.modify j f).length
    rw [List.length_modify]
    exact hinv.le

theorem ext_modify (s : Copying A C) (j : ℕ) (f : Table A → Table A) :
    Ext s { s with tables := s.tables.modify j f } where
  lookup_table _ _ hi := hi
  funcs := List.prefix_rfl
  le := (List.length_modify ..).ge

variable {i j : ℕ} {s₀ s s₁ s₂ : Copying A C} {pre : List (Value A × Value A)}
  {p : Value A × Value A} {k' v' : Value A}

/-- The tables that are done at the end of a call within, and not the one being filled. -/
theorem done_modify (hinv : Inv keys h object s₂) (hown : s₂.lookup_table i = some j)
    (f : Table A → Table A) {i' : ℕ} (hne : i' ≠ i) (hdone : Done keys globals h s₂ i') :
    Done keys globals h { s₂ with tables := s₂.tables.modify j f } i' := by
  refine hdone.mono (ext_modify s₂ j f) fun j' hj' => ?_
  refine List.getElem?_modify_ne f _ (fun hjj => hne ?_)
  rw [← hjj] at hj'
  exact hinv.injective i' i j hj' hown

theorem keyPost_of_post {k : Value A} (hpost : Post true globals h object s k k' s₁) :
    KeyPost true globals h object s k k' s₁ :=
  ⟨hpost.inv, hpost.ext, hpost.same, hpost.copied, fun _ => hpost.fresh, hpost.done⟩

theorem keyPost_same (hinv : Inv false h object s) (k : Value A) :
    KeyPost false globals h object s k k s where
  inv := hinv
  ext := Ext.refl s
  same _ _ := rfl
  copied := rfl
  fresh hkeys := absurd hkeys Bool.false_ne_true
  done _ hnone hsome := absurd hnone hsome

variable [DecidableEq A]

theorem Table.set_fresh {t : Table A} {k : Value A} (hk : k ∉ t.pairs.map Prod.fst)
    (v : Value A) : t.set k v = { t with pairs := t.pairs ++ [(k, v)] } :=
  if_neg hk

theorem loop_step (hloop : Loop keys globals h object i j s₀ pre s) (hj : h.tables.length ≤ j)
    (hi : s₀.lookup_table i = some j)
    (hkey : KeyPost keys globals h object s p.1 k' s₁)
    (hvalue : Post keys globals h object s₁ p.2 v' s₂) (hp : p.1 ∉ pre.map Prod.fst) :
    Loop keys globals h object i j s₀ (pre ++ [p]) (s₂.setField j k' v') := by
  have hlt : j < s.tables.length := hloop.inv.lt hloop.own
  have hext : Ext s s₂ := hkey.ext.trans hvalue.ext
  have hext' := ext_modify s₂ j fun t => t.set k' v'
  have hown₂ := hext.lookup_table i j hloop.own
  obtain ⟨t', ht', hfill⟩ := hloop.table
  -- the calls do not write to the table
  have hsame : ∀ m < s.tables.length, s₂.tables[m]? = s.tables[m]? := fun m hm =>
    (hvalue.same m (hm.trans_le hkey.ext.le)).trans (hkey.same m hm)
  refine ⟨inv_modify hvalue.inv hj _, hloop.ext.trans (hext.trans hext'), hown₂, ?_, ?_, ?_⟩
  · have hfresh := hkey.key_fresh hfill hp
    refine ⟨t'.set k' v', ?_, ?_⟩
    · show (s₂.tables.modify j _)[j]? = _
      rw [List.getElem?_modify_eq, hsame j hlt, ht']
      rfl
    · rw [Table.set_fresh hfresh]
      refine ⟨?_, ?_⟩
      · refine List.rel_append ((hfill.mono (hext.trans hext')).pairs) ?_
        refine List.Forall₂.cons ⟨?_, hvalue.copied.mono hext'⟩ List.Forall₂.nil
        have hcopied := hkey.copied
        cases keys with
        | false => exact hcopied
        | true => exact Copied.mono (hvalue.ext.trans hext') hcopied
      · rw [List.map_append, List.nodup_append]
        refine ⟨hfill.nodup, List.nodup_singleton _, fun a ha b hb hab => ?_⟩
        obtain rfl := List.mem_singleton.mp hb
        exact hfresh (hab ▸ ha)
  · intro m hm hne
    show (s₂.tables.modify j _)[m]? = _
    rw [List.getElem?_modify_ne _ _ (Ne.symm hne), hsame m (hm.trans_le hloop.ext.le)]
    exact hloop.same m hm hne
  · intro i' hnone hsome
    have hne : i' ≠ i := by
      intro heq
      rw [heq, hi] at hnone
      cases hnone
    refine done_modify hvalue.inv hown₂ _ hne ?_
    -- done in the turns before, with the key or with the value
    by_cases hs : s.lookup_table i' = none
    · by_cases hs₁ : s₁.lookup_table i' = none
      · exact hvalue.done i' hs₁ hsome
      · refine (hkey.done i' hs hs₁).mono hvalue.ext fun j' hj' => ?_
        exact hvalue.same j' (hkey.inv.lt hj')
    · refine (hloop.done i' hnone hs).mono hext fun j' hj' => ?_
      exact hsame j' (hloop.inv.lt hj')

end Step

/-! ### The calls -/

/-- A call returns a copy, or meets a function of C. -/
def Outcome (keys : Bool) (globals : ℕ) (h : Heap A C) (object : Value A) (s : Copying A C)
    (v : Value A) (r : LuaM (Value A × Copying A C)) : Prop :=
  (∃ v' s', r = .ok (v', s') ∧ Post keys globals h object s v v' s') ∨
  (r = .error "unable to dump given function" ∧ HasC keys h object)

/-- The tables without a copy. -/
def unlooked (h : Heap A C) (s : Copying A C) : ℕ :=
  ((Finset.range h.tables.length).filter fun i => s.lookup_table i = none).card

theorem unlooked_le {s s' : Copying A C} (hext : Ext s s') : unlooked h s' ≤ unlooked h s := by
  refine Finset.card_le_card fun i hi => ?_
  rw [Finset.mem_filter] at hi ⊢
  refine ⟨hi.1, ?_⟩
  cases hs : s.lookup_table i with
  | none => rfl
  | some j => exact absurd (hi.2.symm.trans (hext.lookup_table i j hs)) (Option.some_ne_none j).symm

theorem unlooked_newTable {s : Copying A C} {i : ℕ} (hi : i < h.tables.length)
    (hnew : s.lookup_table i = none) : unlooked h (s.newTable i) < unlooked h s := by
  have hown := lookup_newTable_self s i
  have hmem : i ∈ (Finset.range h.tables.length).filter fun i => s.lookup_table i = none :=
    Finset.mem_filter.mpr ⟨Finset.mem_range.mpr hi, hnew⟩
  refine Finset.card_lt_card (Finset.ssubset_iff_of_subset (fun m hm => ?_) |>.mpr
    ⟨i, hmem, fun hmem' => ?_⟩)
  · rw [Finset.mem_filter] at hm ⊢
    refine ⟨hm.1, ?_⟩
    cases hs : s.lookup_table m with
    | none => rfl
    | some j =>
      have hj := (ext_newTable hnew).lookup_table m j hs
      exact absurd (hm.2.symm.trans hj) (Option.some_ne_none j).symm
  · exact absurd (hown.symm.trans (Finset.mem_filter.mp hmem').2) (Option.some_ne_none _)

/-- A filled table gets its metatable. -/
theorem post_setMetatable {i : ℕ} {s s₁ : Copying A C} {t : Table A} (hinv : Inv keys h object s)
    (hnew : s.lookup_table i = none) (ht : h.tables[i]? = some t)
    (hloop : Loop keys globals h object i s.tables.length (s.newTable i) t.pairs s₁) :
    Post keys globals h object s (.table i) (.table s.tables.length)
      (s₁.setMetatable s.tables.length t.metatable) := by
  have hext := ext_modify s₁ s.tables.length fun t' : Table A => { t' with metatable := t.metatable }
  have hlt := length_newTable s i
  refine ⟨inv_modify hloop.inv hinv.le _, ((ext_newTable hnew).trans hloop.ext).trans hext, ?_,
    ⟨_, hloop.own, rfl⟩, fun g hg => (by cases hg), fun i' hnone hsome => ?_⟩
  · intro m hm
    show (s₁.tables.modify s.tables.length _)[m]? = _
    rw [List.getElem?_modify_ne _ _ hm.ne', hloop.same m (by omega) hm.ne]
    exact getElem?_newTable_lt hm
  · by_cases heq : i' = i
    · rw [heq]
      obtain ⟨t', ht', hfill⟩ := hloop.table
      refine ⟨_, t, { t' with metatable := t.metatable }, hloop.own, ht, ?_, rfl,
        ⟨(hfill.mono hext).pairs, hfill.nodup⟩⟩
      show (s₁.tables.modify s.tables.length _)[s.tables.length]? = _
      rw [List.getElem?_modify_eq, ht']
      rfl
    · refine done_modify hloop.inv hloop.own _ heq (hloop.done i' ?_ hsome)
      rwa [lookup_newTable_ne s heq]

section Calls

variable [DecidableEq A] {n i j : ℕ} {s₀ : Copying A C}

/-- The calls with this fuel are right. -/
def CallsRight (keys : Bool) (globals : ℕ) (h : Heap A C) (object : Value A) (n : ℕ) : Prop :=
  ∀ v s, Inv keys h object s → Reach keys h object v → h.Has v → unlooked h s < n →
    Outcome keys globals h object s v (copy keys globals n v s)

theorem copyPair_run (hcalls : CallsRight keys globals h object n)
    {pre : List (Value A × Value A)} {s : Copying A C} {p : Value A × Value A}
    (hloop : Loop keys globals h object i j s₀ pre s) (hj : h.tables.length ≤ j)
    (hi : s₀.lookup_table i = some j) (hp : p.1 ∉ pre.map Prod.fst) (hfuel : unlooked h s₀ < n)
    (hhas : h.Has p.1 ∧ h.Has p.2) (hkey : keys = true → Reach keys h object p.1)
    (hvalue : Reach keys h object p.2) :
    (∃ s', copyPair keys (copy keys globals n) j s p = .ok s' ∧
      Loop keys globals h object i j s₀ (pre ++ [p]) s') ∨
    (copyPair keys (copy keys globals n) j s p = .error "unable to dump given function" ∧
      HasC keys h object) := by
  have hfuel' : unlooked h s < n := (unlooked_le hloop.ext).trans_lt hfuel
  -- the key, which stays when only values are copied
  have hkeys : (∃ k' s₁, copyKey keys (copy keys globals n) p.1 s = .ok (k', s₁) ∧
        KeyPost keys globals h object s p.1 k' s₁) ∨
      (copyKey keys (copy keys globals n) p.1 s = .error "unable to dump given function" ∧
        HasC keys h object) := by
    cases keys with
    | false => exact .inl ⟨p.1, s, rfl, keyPost_same hloop.inv p.1⟩
    | true =>
      obtain ⟨k', s₁, hk, hpost⟩ | herr := hcalls p.1 s hloop.inv (hkey rfl) hhas.1 hfuel'
      · exact .inl ⟨k', s₁, hk, keyPost_of_post hpost⟩
      · exact .inr herr
  unfold copyPair
  obtain ⟨k', s₁, hk, hkpost⟩ | ⟨hk, hC⟩ := hkeys
  · rw [hk]
    obtain ⟨v', s₂, hv, hvpost⟩ | ⟨hv, hC⟩ :=
      hcalls p.2 s₁ hkpost.inv hvalue hhas.2 ((unlooked_le hkpost.ext).trans_lt hfuel')
    · refine .inl ⟨s₂.setField j k' v', ?_, loop_step hloop hj hi hkpost hvpost hp⟩
      show (copy keys globals n p.2 s₁ >>= _) = _
      rw [hv]
      rfl
    · refine .inr ⟨?_, hC⟩
      show (copy keys globals n p.2 s₁ >>= _) = _
      rw [hv]
      rfl
  · rw [hk]
    exact .inr ⟨rfl, hC⟩

theorem loop_run (hcalls : CallsRight keys globals h object n) (hj : h.tables.length ≤ j)
    (hi : s₀.lookup_table i = some j) (hfuel : unlooked h s₀ < n) :
    ∀ (l pre : List (Value A × Value A)) (s : Copying A C),
    Loop keys globals h object i j s₀ pre s → ((pre ++ l).map Prod.fst).Nodup →
    (∀ p ∈ l, (h.Has p.1 ∧ h.Has p.2) ∧ (keys = true → Reach keys h object p.1) ∧
      Reach keys h object p.2) →
    (∃ s', l.foldlM (copyPair keys (copy keys globals n) j) s = .ok s' ∧
      Loop keys globals h object i j s₀ (pre ++ l) s') ∨
    (l.foldlM (copyPair keys (copy keys globals n) j) s = .error "unable to dump given function" ∧
      HasC keys h object)
  | [], pre, s, hloop, _, _ => by
    refine .inl ⟨s, rfl, ?_⟩
    rwa [List.append_nil]
  | p :: l, pre, s, hloop, hnodup, hl => by
    rw [List.append_cons] at hnodup ⊢
    obtain ⟨hhas, hkey, hvalue⟩ := hl p List.mem_cons_self
    have hp : p.1 ∉ pre.map Prod.fst := by
      rw [List.map_append, List.map_append] at hnodup
      have hinit := (List.nodup_append.mp hnodup).1
      exact fun hmem => (List.nodup_append.mp hinit).2.2 _ hmem _ List.mem_cons_self rfl
    rw [List.foldlM_cons]
    obtain ⟨s', hs', hloop'⟩ | ⟨herr, hC⟩ :=
      copyPair_run hcalls hloop hj hi hp hfuel hhas hkey hvalue
    · rw [hs']
      exact loop_run hcalls hj hi hfuel l (pre ++ [p]) s' hloop' hnodup
        fun q hq => hl q (List.mem_cons_of_mem p hq)
    · rw [herr]
      exact .inr ⟨rfl, hC⟩

theorem copy_run (hclosed : h.Closed) : ∀ n, CallsRight keys globals h object n
  | 0, _, _, _, _, _, hfuel => absurd hfuel (Nat.not_lt_zero _)
  | n + 1, .other a, s, hinv, _, _, _ =>
    .inl ⟨.other a, s, rfl, post_same hinv rfl fun g hg => by cases hg⟩
  | n + 1, .func f, s, hinv, hreach, hhas, _ => by
    obtain ⟨rest, hrest⟩ := hinv.funcs
    have hf : s.funcs[f]? = h.funcs[f]? := by
      rw [← hrest, List.getElem?_append_left hhas]
    show Outcome keys globals h object s _ (copy_function globals s f)
    unfold copy_function
    rw [hf]
    cases hfun : h.funcs[f]? with
    | none => exact absurd (List.getElem?_eq_none_iff.mp hfun) (not_le.mpr hhas)
    | some c =>
      cases c with
      | c address => exact .inr ⟨rfl, f, address, hreach, hfun⟩
      | lua code upvalues env => exact .inl ⟨_, _, rfl, post_copy_function hinv hfun⟩
  | n + 1, .table i, s, hinv, hreach, hhas, hfuel => by
    unfold copy
    cases hs : s.lookup_table i with
    | some j =>
      exact .inl ⟨.table j, s, rfl, post_same hinv ⟨j, hs, rfl⟩ fun g hg => by cases hg⟩
    | none =>
      obtain ⟨t, ht⟩ : ∃ t, h.tables[i]? = some t := ⟨_, List.getElem?_eq_getElem hhas⟩
      have hst : (s.tables[i]?).getD ⟨[], none⟩ = t := by
        rw [hinv.tables i hhas, ht]
        rfl
      have htmem := List.mem_of_getElem? ht
      have hrun := loop_run (copy_run hclosed n) hinv.le (lookup_newTable_self s i)
        (by have := unlooked_newTable hhas hs; omega) t.pairs [] (s.newTable i)
        (loop_newTable hinv hs hreach) (hclosed.nodup t htmem) fun p hp =>
          ⟨hclosed.has t htmem p hp, fun hkeys => hreach.key hkeys ht hp, hreach.value ht hp⟩
      dsimp only
      rw [hst]
      obtain ⟨s₁, hs₁, hloop⟩ | ⟨herr, hC⟩ := hrun
      · rw [hs₁]
        exact .inl ⟨_, _, rfl, post_setMetatable hinv hs ht hloop⟩
      · rw [herr]
        exact .inr ⟨rfl, hC⟩

end Calls

end Invariants

/-! ## The copy -/

section Copies

variable {keys : Bool} {globals : ℕ} {h : Heap A C} {object : Value A}

theorem inv_init : Inv keys h object ⟨h, fun _ => none⟩ where
  tables _ _ := rfl
  funcs := List.prefix_rfl
  reached _ _ hj := by cases hj
  injective _ _ _ hj := by cases hj
  onto j := by
    constructor
    · intro ⟨i, hj⟩
      cases hj
    · intro ⟨hge, hlt⟩
      exact absurd hlt (not_lt.mpr hge)
  le := le_refl _

theorem prefix_of_getElem? {α : Type} {l l' : List α}
    (hget : ∀ m < l.length, l'[m]? = l[m]?) : l <+: l' := by
  rw [List.prefix_iff_eq_take]
  refine List.ext_getElem? fun m => ?_
  rw [List.getElem?_take]
  split
  · exact (hget m ‹_›).symm
  · exact List.getElem?_eq_none (not_lt.mp ‹_›)

theorem Copied.has {h' : Heap A C} {F : ℕ → Option ℕ} {v v' : Value A}
    (hF : ∀ i j, F i = some j → j < h'.tables.length) (hv : Copied globals h h' F v v') :
    h'.Has v' := by
  cases v with
  | other a =>
    rw [show v' = .other a from hv]
    exact trivial
  | table i =>
    obtain ⟨j, hj, rfl⟩ := hv
    exact hF i j hj
  | func f =>
    obtain ⟨g, _, _, _, rfl, _, _, hg⟩ := hv
    exact (List.getElem?_eq_some_iff.mp hg).1

theorem Heap.Has.mono {h' : Heap A C} (htables : h.tables <+: h'.tables)
    (hfuncs : h.funcs <+: h'.funcs) {v : Value A} (hv : h.Has v) : h'.Has v := by
  cases v with
  | other a => exact trivial
  | table i => exact lt_of_lt_of_le hv htables.length_le
  | func f => exact lt_of_lt_of_le hv hfuncs.length_le

/-- Everything that is met has a copy: the tables with one are closed under their pairs. -/
theorem copied_of_reach {s : Copying A C} {v' : Value A}
    (hroot : Copied globals h s.toHeap s.lookup_table object v')
    (hdone : ∀ i, s.lookup_table i ≠ none → Done keys globals h s i) {v : Value A}
    (hv : Reach keys h object v) : ∃ w, Copied globals h s.toHeap s.lookup_table v w := by
  -- the pair of the new table for a pair of an old one
  have hpair : ∀ {i t p}, (∃ w, Copied globals h s.toHeap s.lookup_table (.table i) w) →
      h.tables[i]? = some t → p ∈ t.pairs →
      ∃ p', PairCopied keys globals h s.toHeap s.lookup_table p p' := by
    intro i t p ⟨w, j, hj, _⟩ ht hp
    obtain ⟨_, t₀, t', _, ht₀, _, _, hfill⟩ := hdone i (by rw [hj]; exact Option.some_ne_none j)
    obtain rfl := Option.some.inj (ht.symm.trans ht₀)
    obtain ⟨m, hm⟩ := List.mem_iff_get.mp hp
    have hpm := hfill.pairs.get m.isLt (hfill.pairs.length_eq ▸ m.isLt)
    rw [show t.pairs.get ⟨m, m.isLt⟩ = p from hm] at hpm
    exact ⟨_, hpm⟩
  induction hv with
  | root => exact ⟨v', hroot⟩
  | value _ ht hp ih =>
    obtain ⟨p', hp'⟩ := hpair ih ht hp
    exact ⟨_, hp'.2⟩
  | key hkeys _ ht hp ih =>
    obtain ⟨p', hp'⟩ := hpair ih ht hp
    have hkey := hp'.1
    rw [if_pos hkeys] at hkey
    exact ⟨_, hkey⟩

/-- A finished call has made a copy. -/
theorem isCopy_of_post (hclosed : h.Closed) {v' : Value A} {s : Copying A C}
    (hpost : Post keys globals h object ⟨h, fun _ => none⟩ object v' s) :
    IsCopy keys globals h object s.toHeap v' s.lookup_table := by
  have hdone : ∀ i, s.lookup_table i ≠ none → Done keys globals h s i := fun i hi =>
    hpost.done i rfl hi
  have htables : h.tables <+: s.tables := prefix_of_getElem? hpost.inv.tables
  have hlt : ∀ i j, s.lookup_table i = some j → j < s.tables.length := fun i j hj =>
    hpost.inv.lt hj
  refine ⟨htables, hpost.inv.funcs, fun i => ⟨fun ⟨j, hj⟩ => hpost.inv.reached i j hj,
    fun hreach => ?_⟩, hpost.inv.injective, hpost.inv.onto, hpost.copied, fun i j t hj ht => ?_,
    ?_⟩
  · obtain ⟨_, j, hj, _⟩ := copied_of_reach hpost.copied hdone hreach
    exact ⟨j, hj⟩
  · obtain ⟨j', t₀, t', hj', ht₀, ht', hmeta, hfill⟩ :=
      hdone i (by rw [hj]; exact Option.some_ne_none j)
    obtain rfl := Option.some.inj (hj.symm.trans hj')
    obtain rfl := Option.some.inj (ht.symm.trans ht₀)
    exact ⟨t', ht', hmeta, hfill.pairs⟩
  · -- a table is an old one or a done one
    have htable : ∀ t' ∈ s.tables, t' ∈ h.tables ∨ ∃ t ∈ h.tables,
        Filling keys globals h s t.pairs t' := by
      intro t' ht'
      obtain ⟨j, hj⟩ := List.mem_iff_getElem?.mp ht'
      rcases lt_or_ge j h.tables.length with hold | hnew
      · rw [hpost.inv.tables j hold] at hj
        exact .inl (List.mem_of_getElem? hj)
      · obtain ⟨i, hi⟩ := (hpost.inv.onto j).mpr ⟨hnew, (List.getElem?_eq_some_iff.mp hj).1⟩
        obtain ⟨j', t, t₁, hj', ht, ht₁, _, hfill⟩ :=
          hdone i (by rw [hi]; exact Option.some_ne_none j)
        obtain rfl := Option.some.inj (hi.symm.trans hj')
        obtain rfl := Option.some.inj (hj.symm.trans ht₁)
        exact .inr ⟨t, List.mem_of_getElem? ht, hfill⟩
    refine ⟨fun t' ht' => ?_, fun t' ht' p' hp' => ?_⟩
    · rcases htable t' ht' with hold | ⟨t, _, hfill⟩
      · exact hclosed.nodup t' hold
      · exact hfill.nodup
    · rcases htable t' ht' with hold | ⟨t, ht, hfill⟩
      · obtain ⟨hkey, hvalue⟩ := hclosed.has t' hold p' hp'
        exact ⟨hkey.mono htables hpost.inv.funcs, hvalue.mono htables hpost.inv.funcs⟩
      · obtain ⟨m, hm⟩ := List.mem_iff_get.mp hp'
        have hm' : m.val < t.pairs.length := by
          rw [hfill.pairs.length_eq]
          exact m.isLt
        have hpair := hfill.pairs.get hm' m.isLt
        rw [show t'.pairs.get ⟨m, m.isLt⟩ = p' from hm] at hpair
        refine ⟨?_, hpair.2.has hlt⟩
        have hkey := hpair.1
        cases keys with
        | false =>
          rw [show p'.1 = _ from hkey]
          exact (hclosed.has t ht _ (List.get_mem _ _)).1.mono htables hpost.inv.funcs
        | true => exact Copied.has hlt hkey

/-- What a call gives: a copy, or the error when there is a function of C in the value. -/
def Result (keys : Bool) (globals : ℕ) (h : Heap A C) (object : Value A)
    (r : LuaM (Value A × Heap A C)) : Prop :=
  (HasC keys h object ∧ r = .error "unable to dump given function") ∨
  (¬ HasC keys h object ∧ ∃ v' h' F, r = .ok (v', h') ∧ IsCopy keys globals h object h' v' F)

variable [DecidableEq A]

theorem copyObject_result (hclosed : h.Closed) (hobject : h.Has object) :
    Result keys globals h object (copyObject keys globals h object) := by
  have hfuel : unlooked h (⟨h, fun _ => none⟩ : Copying A C) < h.tables.length + 1 := by
    refine Nat.lt_succ_of_le ((Finset.card_filter_le _ _).trans ?_)
    rw [Finset.card_range]
  unfold copyObject
  obtain ⟨v', s, hok, hpost⟩ | ⟨herr, hC⟩ :=
    copy_run hclosed _ object _ inv_init Reach.root hobject hfuel
  · rw [hok]
    refine .inr ⟨?_, v', s.toHeap, s.lookup_table, rfl, isCopy_of_post hclosed hpost⟩
    -- a function of C has no copy
    intro ⟨f, address, hreach, hf⟩
    obtain ⟨_, g, _, _, _, _, _, hlua, _⟩ :=
      copied_of_reach hpost.copied (fun i hi => hpost.done i rfl hi) hreach
    rw [hf] at hlua
    cases hlua
  · rw [herr]
    exact .inl ⟨hC, rfl⟩

/-- `deepcopy` and `deepcopy_values` end for every value of every heap: with an error exactly if
there is a function of C in it, and else with a copy. -/
theorem deepcopy_isCopy (globals : ℕ) (hclosed : h.Closed) (hobject : h.Has object) :
    Result true globals h object (deepcopy globals h object) ∧
    Result false globals h object (deepcopy_values globals h object) :=
  ⟨copyObject_result hclosed hobject, copyObject_result hclosed hobject⟩

end Copies

/-! ### Example -/

/-- A table that is a key and a value of itself, with a function. -/
def loopHeap : Heap String String where
  tables := [⟨[(.other "self", .table 0), (.table 0, .func 0)], some 1⟩, ⟨[], none⟩]
  funcs := [.lua "return x" [.table 0] 1]

theorem loopHeap_closed : loopHeap.Closed where
  nodup := by decide
  has := by
    intro t ht p hp
    rcases List.mem_cons.mp ht with rfl | ht
    · rcases List.mem_cons.mp hp with rfl | hp
      · exact ⟨trivial, Nat.two_pos⟩
      · obtain rfl := List.mem_singleton.mp hp
        exact ⟨Nat.two_pos, Nat.one_pos⟩
    · obtain rfl := List.mem_singleton.mp ht
      cases hp

theorem deepcopy_isCopy_loop :
    Result true 1 loopHeap (.table 0) (deepcopy 1 loopHeap (.table 0)) ∧
    Result false 1 loopHeap (.table 0) (deepcopy_values 1 loopHeap (.table 0)) :=
  deepcopy_isCopy 1 loopHeap_closed Nat.two_pos

end Lua2SC.DeepCopy

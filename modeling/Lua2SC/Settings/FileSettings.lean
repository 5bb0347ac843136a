import Lua2SC.Codec.SerializeTable
import Lua2SC.Settings.Path

/-!
# `file_settings.lua`: the settings file

`save_table` puts a table under a key of `self.table`, cuts its paths off behind the base path
and writes `self.table` to the file; `load_table` reads the file back into new tables, fills in
the defaults and makes the paths absolute. Both change the settings where they are, in the
tables of the Lua state.

`save_spec` and `load_spec` say what each of the two does to the paths (`Paths`) and to the other
values.

A raised error is `none`. What is written to a file is what is read from it; `pairs` goes
through a table in the order `order`.
-/

namespace Lua2SC.Settings

open Lua2SC.Lua Lua2SC.TableGraph Lua2SC.SerializeTable

/-- The tables of the Lua state, and its global `SELFT`. -/
abbrev Heap := State Scalar

/-- A field's name. -/
def field (s : String) : Scalar := .string (ascii s)

def index (i : ℕ) : Scalar := .number (.finite i)

def str (s : LString) : Val Scalar := .leaf (.string s)

/-- What an `if` takes for true. -/
def truth : Val Scalar → Bool
  | .leaf (.bool b) => b
  | _ => true

/-- The order of `pairs`. -/
structure Orders (order : Heap → ℕ → List (Scalar × Val Scalar)) : Prop where
  nodup : ∀ lua i, ((order lua i).map Prod.fst).Nodup
  mem : ∀ lua i k v, (k, v) ∈ order lua i ↔ lua.get (.table i) k = some v

/-! ## The tables -/

/-- `t[k] = f(t[k])`, for a string. -/
def setPath (f : LString → LString) (t : ℕ) (k : Scalar) (lua : Heap) : Option Heap :=
  match lua.get (.table t) k with
  | some (.leaf (.string v)) => some (lua.put (some (t, k)) (str (f v)))
  | _ => none

/-- `for i,v in ipairs(t) do t[i] = f(v) end`, `n` times at most. -/
def setPaths (f : LString → LString) (t : ℕ) : ℕ → ℕ → Heap → Option Heap
  | 0, _, lua => some lua
  | n + 1, i, lua =>
    if lua.get (.table t) (index i) = none then some lua
    else (setPath f t (index i) lua).bind (setPaths f t n (i + 1))

/-- The body of `abs2portable` and `portable2abs`. -/
def eachPath (f : LString → LString) (settings : ℕ) (lua : Heap) : Option Heap :=
  (setPath f settings (field "SCpath") lua).bind fun lua =>
    (setPath f settings (field "SC_SYNTHDEF_PATH") lua).bind fun lua =>
      match lua.get (.table settings) (field "SC_PLUGIN_PATH") with
      | some (.table p) => setPaths f p ((lua.store[p]?).elim 0 tablelength) 1 lua
      | _ => none

/-- `settings[k] = settings[k] or 0`. -/
def orZero (settings : ℕ) (k : Scalar) (lua : Heap) : Heap :=
  lua.put (some (settings, k)) (((lua.get (.table settings) k).filter truth).getD (.leaf (index 0)))

/-- `if not settings[k] then settings[k] = v end`. -/
def mergeDefault (settings : ℕ) (lua : Heap) (kv : Scalar × Val Scalar) : Heap :=
  if (lua.get (.table settings) kv.1).any truth then lua
  else lua.put (some (settings, kv.1)) kv.2

/-! ## The object -/

structure FileSettings (win : Bool) where
  basepath : BasePath win
  /-- `self.defaults`, a table. -/
  defaults : ℕ
  /-- `self.table`. -/
  table : ℕ
  lua : Heap
  /-- What is in the file, if there is one. -/
  file : Option LString
  /-- Whether it is opened for writing. -/
  writable : Bool

namespace FileSettings

variable {win : Bool}

/-- `t.settings`. -/
def settingsOf (self : FileSettings win) (t : ℕ) : Option ℕ :=
  match self.lua.get (.table t) (field "settings") with
  | some (.table i) => some i
  | _ => none

def abs2portable (self : FileSettings win) : Option (FileSettings win) :=
  (self.settingsOf self.table).bind fun t =>
    (eachPath (getportable self.basepath) t self.lua).map fun lua => { self with lua := lua }

def portable2abs (self : FileSettings win) : Option (FileSettings win) :=
  (self.settingsOf self.table).bind fun t =>
    (eachPath (getabs self.basepath) t self.lua).map fun lua =>
      { self with lua := orZero t (field "SC_NINS") (orZero t (field "SC_NOUTS") lua) }

variable (order : Heap → ℕ → List (Scalar × Val Scalar))

/-- `_write`. -/
def write (self : FileSettings win) : Option (FileSettings win) :=
  if self.writable then
    (serializeTableF (order self.lua) (self.lua.store.length + 1) (.table self.table)).map
      fun text => { self with file := some text }
  else some self

/-- One turn of the loop of `_read` over the defaults. -/
def merge (self : FileSettings win) (kv : Scalar × Val Scalar) : Option (FileSettings win) :=
  (self.settingsOf self.table).map fun t => { self with lua := mergeDefault t self.lua kv }

/-- `_read`. -/
def read (self : FileSettings win) : Option (FileSettings win) :=
  match self.file with
  | none => some { self with table := self.defaults }
  | some text =>
    (load self.lua text).bind fun r =>
      let t := if truth r.2 then r.2 else .table self.defaults
      match t with
      | .leaf _ => none
      | .table i =>
        let self := { self with lua := r.1, table := i }
        (self.settingsOf self.defaults).bind fun d => (order self.lua d).foldlM merge self

def save_table (self : FileSettings win) (key : LString) (t : Val Scalar) :
    Option (FileSettings win) :=
  ({ self with lua := self.lua.put (some (self.table, .string key)) t }.abs2portable).bind
    (write order)

/-- And the table that is returned. -/
def load_table (self : FileSettings win) (key : LString) :
    Option (FileSettings win × Option (Val Scalar)) :=
  (self.read order).bind fun self =>
    self.portable2abs.map fun self => (self, self.lua.get (.table self.table) (.string key))

end FileSettings

/-! ## What happens to the paths -/

section Paths

/-- Keys and numbers are finite, and the tables that are held are there. -/
def Sound (lua : Heap) : Prop := ∀ i k v, lua.get (.table i) k = some v →
  k.Finite ∧ v.Forall Scalar.Finite ∧ ∀ j, v = .table j → j < lua.store.length

/-- The table is the list. -/
def IsList (lua : Heap) (p : ℕ) (Ps : List LString) : Prop := ∀ k v,
  lua.get (.table p) k = some v ↔ ∃ i P, Ps[i]? = some P ∧ k = index (i + 1) ∧ v = str P

/-- The paths in the settings `t`, whose list of plugin paths is the table `p`. -/
structure Paths (lua : Heap) (t p : ℕ) (scpath synthdefs : LString) (plugins : List LString) :
    Prop where
  ne : t ≠ p
  scpath : lua.get (.table t) (field "SCpath") = some (str scpath)
  synthdefs : lua.get (.table t) (field "SC_SYNTHDEF_PATH") = some (str synthdefs)
  list : lua.get (.table t) (field "SC_PLUGIN_PATH") = some (.table p)
  lt : p < lua.store.length
  plugins : IsList lua p plugins

/-- Strings have become strings. -/
structure Kin (lua lua' : Heap) : Prop where
  length : lua'.store.length = lua.store.length
  truth : ∀ i k, (lua'.get (.table i) k).map truth = (lua.get (.table i) k).map truth
  sound : Sound lua → Sound lua'

variable {lua lua' lua'' : Heap} {f : LString → LString} {t p : ℕ} {k : Scalar} {v : LString}

theorem Kin.rfl : Kin lua lua := ⟨Eq.refl _, fun _ _ => Eq.refl _, id⟩

theorem Kin.trans (h : Kin lua lua') (h' : Kin lua' lua'') : Kin lua lua'' where
  length := h'.length.trans h.length
  truth i k := (h'.truth i k).trans (h.truth i k)
  sound hs := h'.sound (h.sound hs)

theorem length_put_some (lua : Heap) (i : ℕ) (k : Scalar) (v : Val Scalar) :
    (lua.put (some (i, k)) v).store.length = lua.store.length := length_put _ _ _

theorem Sound.put (h : Sound lua) {i : ℕ} (hi : i < lua.store.length) (hk : k.Finite)
    {v : Val Scalar} (hv : v.Forall Scalar.Finite) (hj : ∀ j, v = .table j → j < lua.store.length) :
    Sound (lua.put (some (i, k)) v) := by
  intro i' k' v' hget
  rw [get_put hi] at hget
  rw [length_put_some]
  split at hget
  next heq =>
    obtain ⟨-, rfl⟩ := heq
    cases hget
    exact ⟨hk, hv, hj⟩
  next => exact h i' k' v' hget

theorem setPath_eq (h : lua.get (.table t) k = some (str v)) :
    setPath f t k lua = some (lua.put (some (t, k)) (str (f v))) := by
  rw [setPath, h]
  rfl

theorem kin_put (h : lua.get (.table t) k = some (str v)) (w : LString) :
    Kin lua (lua.put (some (t, k)) (str w)) where
  length := length_put_some _ _ _ _
  truth i k' := by
    rw [get_put (get_lt h)]
    split
    next heq =>
      obtain ⟨rfl, rfl⟩ := heq
      rw [h]
      rfl
    next => rfl
  sound hs := hs.put (get_lt h) (hs t k _ h).1 trivial fun j hj => by cases hj

theorem index_inj {i j : ℕ} (h : index i = index j) : i = j := by
  have hq := LuaNumber.finite.inj (Scalar.number.inj h)
  exact_mod_cast hq

/-- One path of the list is set. -/
theorem IsList.put {done rest : List LString} {P : LString} (h : IsList lua p (done ++ P :: rest))
    (Q : LString) :
    IsList (lua.put (some (p, index (done.length + 1))) (str Q)) p (done ++ Q :: rest) := by
  have hP : lua.get (.table p) (index (done.length + 1)) = some (str P) :=
    (h _ _).mpr ⟨done.length, P, by simp, rfl, rfl⟩
  have hother : ∀ i, i ≠ done.length → (done ++ Q :: rest)[i]? = (done ++ P :: rest)[i]? := by
    intro i hi
    rcases Nat.lt_or_gt_of_ne hi with hlt | hgt
    · rw [List.getElem?_append_left hlt, List.getElem?_append_left hlt]
    · obtain ⟨m, rfl⟩ := Nat.exists_eq_add_of_lt hgt
      rw [List.getElem?_append_right (by omega), List.getElem?_append_right (by omega)]
      rw [show done.length + m + 1 - done.length = m + 1 by omega]
      rfl
  intro k v
  rw [get_put (get_lt hP)]
  by_cases hk : k = index (done.length + 1)
  · rw [if_pos ⟨rfl, hk⟩]
    constructor
    · intro hv
      exact ⟨done.length, Q, by simp, hk, (Option.some.inj hv).symm⟩
    · intro ⟨i, R, hR, hi, hv⟩
      have hlen : i = done.length := Nat.succ_injective (index_inj (hi.symm.trans hk))
      rw [hlen] at hR
      have hQ : Q = R := by simpa using hR
      rw [hv, hQ]
  · rw [if_neg fun h => hk h.2, h k v]
    refine exists_congr fun i => exists_congr fun R => and_congr_left fun ⟨hi, _⟩ => ?_
    rw [hother i fun heq => hk (by rw [hi, heq])]

theorem setPaths_spec (rest : List LString) : ∀ (done : List LString) (n : ℕ) (lua : Heap),
    IsList lua p (done ++ rest) → rest.length ≤ n →
    ∃ lua', setPaths f p n (done.length + 1) lua = some lua' ∧
      IsList lua' p (done ++ rest.map f) ∧ Kin lua lua' ∧
      ∀ i ≠ p, ∀ k, lua'.get (.table i) k = lua.get (.table i) k := by
  induction rest with
  | nil =>
    intro done n lua h _
    have hend : lua.get (.table p) (index (done.length + 1)) = none := by
      refine Option.eq_none_iff_forall_ne_some.mpr fun v hv => ?_
      obtain ⟨i, P, hP, hi, -⟩ := (h _ _).mp hv
      obtain rfl : done.length = i := Nat.succ_injective (index_inj hi)
      simp at hP
    refine ⟨lua, ?_, h, .rfl, fun _ _ _ => rfl⟩
    cases n with
    | zero => rfl
    | succ n => rw [setPaths, if_pos hend]
  | cons P rest ih =>
    intro done n lua h hn
    cases n with
    | zero => exact absurd hn (Nat.not_succ_le_zero _)
    | succ n =>
      have hP : lua.get (.table p) (index (done.length + 1)) = some (str P) :=
        (h _ _).mpr ⟨done.length, P, by simp, rfl, rfl⟩
      have hput := h.put (f P)
      rw [← List.singleton_append, ← List.append_assoc] at hput
      obtain ⟨lua', hset, hlist, hkin, hframe⟩ := ih (done ++ [f P]) n _ hput
        (Nat.le_of_succ_le_succ hn)
      refine ⟨lua', ?_, ?_, (kin_put hP (f P)).trans hkin, fun i hi k => ?_⟩
      · rw [setPaths, if_neg (by rw [hP]; exact Option.some_ne_none _), setPath_eq hP]
        rw [List.length_append] at hset
        exact hset
      · rw [List.append_assoc] at hlist
        exact hlist
      · rw [hframe i hi, get_put (get_lt hP), if_neg fun h => hi h.1]

theorem IsList.congr {Ps : List LString} (h : IsList lua p Ps)
    (hget : ∀ k, lua'.get (.table p) k = lua.get (.table p) k) : IsList lua' p Ps := by
  intro k v
  rw [hget]
  exact h k v

/-- There are pairs enough for the loop. -/
theorem IsList.length_le {Ps : List LString} (h : IsList lua p Ps) :
    Ps.length ≤ (lua.store[p]?).elim 0 tablelength := by
  have hkey : ∀ i < Ps.length, ∃ v, lua.get (.table p) (index (i + 1)) = some v :=
    fun i hi => ⟨_, (h _ _).mpr ⟨i, Ps[i], List.getElem?_eq_getElem hi, rfl, rfl⟩⟩
  cases hstore : lua.store[p]? with
  | none =>
    by_contra hlt
    obtain ⟨v, hv⟩ := hkey 0 (Nat.lt_of_not_le hlt)
    obtain ⟨tbl, htbl, -⟩ := get_table.mp hv
    rw [hstore] at htbl
    cases htbl
  | some tbl =>
    have hnodup : ((List.range Ps.length).map fun i => index (i + 1)).Nodup :=
      List.nodup_range.map fun i j hij => Nat.succ_injective (index_inj hij)
    have hsubset : ((List.range Ps.length).map fun i => index (i + 1)) ⊆ tbl.keys := by
      intro k hk
      obtain ⟨i, hi, rfl⟩ := List.mem_map.mp hk
      obtain ⟨v, hv⟩ := hkey i (List.mem_range.mp hi)
      obtain ⟨tbl', htbl, hlookup⟩ := get_table.mp hv
      rw [hstore] at htbl
      cases htbl
      exact AList.mem_keys.mpr (AList.lookup_isSome.mp (Option.isSome_of_mem hlookup))
    have hle := (List.subperm_of_subset hnodup hsubset).length_le
    rw [List.length_map, List.length_range] at hle
    refine hle.trans_eq ?_
    exact List.length_map _

theorem eachPath_spec {C Y : LString} {Ps : List LString} (h : Paths lua t p C Y Ps)
    (f : LString → LString) :
    ∃ lua', eachPath f t lua = some lua' ∧ Paths lua' t p (f C) (f Y) (Ps.map f) ∧ Kin lua lua' ∧
      (∀ k, k ≠ field "SCpath" → k ≠ field "SC_SYNTHDEF_PATH" →
        lua'.get (.table t) k = lua.get (.table t) k) ∧
      ∀ i, i ≠ t → i ≠ p → ∀ k, lua'.get (.table i) k = lua.get (.table i) k := by
  have hCY : field "SCpath" ≠ field "SC_SYNTHDEF_PATH" := by decide
  have hlC : field "SC_PLUGIN_PATH" ≠ field "SCpath" := by decide
  have hlY : field "SC_PLUGIN_PATH" ≠ field "SC_SYNTHDEF_PATH" := by decide
  -- the two paths
  let lua₁ := lua.put (some (t, field "SCpath")) (str (f C))
  have hget₁ : ∀ i k, lua₁.get (.table i) k = if i = t ∧ k = field "SCpath" then some (str (f C))
      else lua.get (.table i) k := get_put (get_lt h.scpath) _ _
  have hY₁ : lua₁.get (.table t) (field "SC_SYNTHDEF_PATH") = some (str Y) := by
    rw [hget₁, if_neg fun heq => hCY heq.2.symm]
    exact h.synthdefs
  let lua₂ := lua₁.put (some (t, field "SC_SYNTHDEF_PATH")) (str (f Y))
  have hget₂ : ∀ i k, lua₂.get (.table i) k = if i = t ∧ k = field "SC_SYNTHDEF_PATH" then
      some (str (f Y)) else lua₁.get (.table i) k := get_put (get_lt hY₁) _ _
  have hother : ∀ i, i ≠ t → ∀ k, lua₂.get (.table i) k = lua.get (.table i) k := by
    intro i hi k
    rw [hget₂, if_neg fun heq => hi heq.1, hget₁, if_neg fun heq => hi heq.1]
  have hrest : ∀ k, k ≠ field "SCpath" → k ≠ field "SC_SYNTHDEF_PATH" →
      lua₂.get (.table t) k = lua.get (.table t) k := by
    intro k hC hY
    rw [hget₂, if_neg fun heq => hY heq.2, hget₁, if_neg fun heq => hC heq.2]
  -- the list
  have hlist : lua₂.get (.table t) (field "SC_PLUGIN_PATH") = some (.table p) := by
    rw [hrest _ hlC hlY]
    exact h.list
  have hplugins : IsList lua₂ p ([] ++ Ps) := h.plugins.congr (hother p h.ne.symm)
  obtain ⟨lua', hset, hlist', hkin, hframe⟩ := setPaths_spec (f := f) Ps [] _ lua₂ hplugins
    hplugins.length_le
  have htop := hframe t h.ne
  have hkin' : Kin lua lua' := (kin_put h.scpath _).trans ((kin_put hY₁ _).trans hkin)
  have hlt : p < lua'.store.length := by
    rw [hkin'.length]
    exact h.lt
  refine ⟨lua', ?_, ⟨h.ne, ?_, ?_, ?_, hlt, hlist'⟩, hkin', fun k hC hY => ?_, fun i hi hp k => ?_⟩
  · rw [eachPath, setPath_eq h.scpath, Option.bind_some, setPath_eq hY₁, Option.bind_some]
    show (match lua₂.get (.table t) (field "SC_PLUGIN_PATH") with
      | some (.table p) => setPaths f p ((lua₂.store[p]?).elim 0 tablelength) 1 lua₂
      | _ => none) = _
    rw [hlist]
    exact hset
  · rw [htop, hget₂, if_neg fun heq => hCY heq.2, hget₁, if_pos ⟨rfl, rfl⟩]
  · rw [htop, hget₂, if_pos ⟨rfl, rfl⟩]
  · rw [htop, hlist]
  · rw [htop, hrest k hC hY]
  · rw [hframe i hp, hother i hi]

end Paths

/-! ## What happens to the other values -/

section Values

variable {lua : Heap} {t : ℕ}

/-- What the settings have under a key, where the defaults have `d` and they had `x`. -/
def merged (x d : Option (Val Scalar)) : Option (Val Scalar) :=
  if x.any truth then x else d.or x

theorem merged_none (x : Option (Val Scalar)) : merged x none = x := by
  unfold merged
  rw [Option.none_or, ite_self]

theorem merged_of_truth {x d : Option (Val Scalar)} {v : Val Scalar} (hx : x = some v)
    (hv : truth v = true) : merged x d = x := by
  rw [merged, hx, Option.any_some, if_pos hv]

theorem mergeDefault_get (ht : t < lua.store.length) (kv : Scalar × Val Scalar) (i : ℕ)
    (k : Scalar) : (mergeDefault t lua kv).get (.table i) k =
      if i = t ∧ k = kv.1 then merged (lua.get (.table t) k) (some kv.2)
      else lua.get (.table i) k := by
  unfold mergeDefault merged
  by_cases hik : i = t ∧ k = kv.1
  · rw [if_pos hik, hik.1, hik.2]
    by_cases htrue : (lua.get (.table t) kv.1).any truth
    · rw [if_pos htrue, if_pos htrue]
    · rw [if_neg htrue, if_neg htrue, get_put ht, if_pos ⟨rfl, rfl⟩]
      rfl
  · rw [if_neg hik]
    split
    · rfl
    · rw [get_put ht, if_neg hik]

theorem mergeDefault_length (lua : Heap) (kv : Scalar × Val Scalar) :
    (mergeDefault t lua kv).store.length = lua.store.length := by
  unfold mergeDefault
  split
  · rfl
  · exact length_put_some _ _ _ _

/-- **The loop over the defaults**, in whatever order. -/
theorem mergeDefaults_get {es : List (Scalar × Val Scalar)} (hnodup : (es.map Prod.fst).Nodup)
    {D : Scalar → Option (Val Scalar)} (hD : ∀ k w, (k, w) ∈ es ↔ D k = some w)
    (ht : t < lua.store.length) (i : ℕ) (k : Scalar) :
    (es.foldl (mergeDefault t) lua).get (.table i) k =
      if i = t then merged (lua.get (.table t) k) (D k) else lua.get (.table i) k := by
  induction es generalizing lua D with
  | nil =>
    have hnone : D k = none := by
      refine Option.eq_none_iff_forall_ne_some.mpr fun w hw => ?_
      exact absurd ((hD k w).mpr hw) List.not_mem_nil
    rw [hnone, merged_none]
    split
    next heq =>
      rw [heq]
      rfl
    next => rfl
  | cons kv es ih =>
    obtain ⟨hnew, hnodup⟩ := List.nodup_cons.mp hnodup
    have hfirst : D kv.1 = some kv.2 := (hD _ _).mp List.mem_cons_self
    -- the others have other keys
    have hD' : ∀ k w, (k, w) ∈ es ↔ (if k = kv.1 then none else D k) = some w := by
      intro k w
      split
      next hk =>
        refine iff_of_false (fun hmem => hnew ?_) (Option.some_ne_none w).symm
        rw [← hk]
        exact List.mem_map.mpr ⟨(k, w), hmem, rfl⟩
      next hk =>
        rw [← hD k w, List.mem_cons]
        exact ⟨Or.inr, fun h => h.resolve_left fun heq => hk (congrArg Prod.fst heq)⟩
    rw [List.foldl_cons, ih hnodup hD' (by rw [mergeDefault_length]; exact ht),
      mergeDefault_get ht, mergeDefault_get ht]
    by_cases hi : i = t
    · rw [if_pos hi, if_pos hi]
      by_cases hk : k = kv.1
      · rw [if_pos hk, if_pos ⟨rfl, hk⟩, merged_none, hk, hfirst]
      · rw [if_neg hk, if_neg fun h => hk h.2]
    · rw [if_neg hi, if_neg hi, if_neg fun h => hi h.1]

theorem mergeDefaults_length (es : List (Scalar × Val Scalar)) (lua : Heap) :
    (es.foldl (mergeDefault t) lua).store.length = lua.store.length := by
  induction es generalizing lua with
  | nil => rfl
  | cons kv es ih => rw [List.foldl_cons, ih, mergeDefault_length]

theorem orZero_get (ht : t < lua.store.length) (k : Scalar) (i : ℕ) (k' : Scalar) :
    (orZero t k lua).get (.table i) k' = if i = t ∧ k' = k then
      some (((lua.get (.table t) k).filter truth).getD (.leaf (index 0)))
    else lua.get (.table i) k' := get_put ht _ _ _ _

theorem orZero_length (k : Scalar) (lua : Heap) :
    (orZero t k lua).store.length = lua.store.length := length_put_some _ _ _ _

/-- A field with a number of channels. -/
def IsChannels (k : Scalar) : Prop := k = field "SC_NOUTS" ∨ k = field "SC_NINS"

instance : DecidablePred IsChannels := fun _ => inferInstanceAs (Decidable (_ ∨ _))

/-- What `portable2abs` leaves there, where there was `x`. -/
def zeroed (k : Scalar) (x : Option (Val Scalar)) : Option (Val Scalar) :=
  if IsChannels k then some ((x.filter truth).getD (.leaf (index 0))) else x

theorem channels_get (ht : t < lua.store.length) (i : ℕ) (k : Scalar) :
    (orZero t (field "SC_NINS") (orZero t (field "SC_NOUTS") lua)).get (.table i) k =
      if i = t then zeroed k (lua.get (.table t) k) else lua.get (.table i) k := by
  have hne : field "SC_NINS" ≠ field "SC_NOUTS" := by decide
  rw [orZero_get (by rw [orZero_length]; exact ht), orZero_get ht, orZero_get ht]
  by_cases hi : i = t
  · rw [if_pos hi, hi]
    unfold zeroed
    by_cases hins : k = field "SC_NINS"
    · rw [if_pos ⟨rfl, hins⟩, if_neg fun h => hne h.2,
        if_pos (show IsChannels k from .inr hins), hins]
    · rw [if_neg fun h => hins h.2]
      by_cases houts : k = field "SC_NOUTS"
      · rw [if_pos ⟨rfl, houts⟩, if_pos (show IsChannels k from .inl houts), houts]
      · rw [if_neg fun h => houts h.2, if_neg (show ¬IsChannels k from not_or.mpr ⟨houts, hins⟩)]
  · rw [if_neg hi, if_neg fun h => hi h.1, if_neg fun h => hi h.1]

end Values

/-! ## Out to the file and back -/

section Run

variable {lua lua' : Heap} {t p : ℕ} {C Y : LString} {Ps : List LString}

theorem Paths.congr (h : Paths lua t p C Y Ps) (hlen : lua'.store.length = lua.store.length)
    (htop : ∀ k ∈ [field "SCpath", field "SC_SYNTHDEF_PATH", field "SC_PLUGIN_PATH"],
      lua'.get (.table t) k = lua.get (.table t) k)
    (hlist : ∀ k, lua'.get (.table p) k = lua.get (.table p) k) : Paths lua' t p C Y Ps where
  ne := h.ne
  scpath := (htop _ (by simp)).trans h.scpath
  synthdefs := (htop _ (by simp)).trans h.synthdefs
  list := (htop _ (by simp)).trans h.list
  lt := by rw [hlen]; exact h.lt
  plugins := h.plugins.congr hlist

/-- The paths are in the copy as well. -/
theorem Paths.iso (h : Paths lua t p C Y Ps) {v v' : Val Scalar} {g : ℕ → ℕ}
    (hiso : Iso lua.store v lua'.store v' g) (ht : Below lua.store v t)
    (hp : Below lua.store v p) : Paths lua' (g t) (g p) C Y Ps where
  ne heq := h.ne (hiso.inj t p ht hp heq)
  scpath := by rw [hiso.get ht, h.scpath]; rfl
  synthdefs := by rw [hiso.get ht, h.synthdefs]; rfl
  list := by rw [hiso.get ht, h.list]; rfl
  lt := by
    obtain ⟨-, tbl, -, htbl, -⟩ := hiso.table p hp
    exact (List.getElem?_eq_some_iff.mp htbl).1
  plugins k v := by
    rw [hiso.get hp, Option.map_eq_some_iff]
    constructor
    · intro ⟨w, hw, hv⟩
      obtain ⟨i, P, hP, hk, rfl⟩ := (h.plugins k w).mp hw
      exact ⟨i, P, hP, hk, hv.symm⟩
    · intro ⟨i, P, hP, hk, hv⟩
      exact ⟨str P, (h.plugins k _).mpr ⟨i, P, hP, hk, rfl⟩, hv.symm⟩

variable {order : Heap → ℕ → List (Scalar × Val Scalar)}

def Sound.tables (h : Sound lua) {T : ℕ} (hT : T < lua.store.length) : Tables where
  store := lua.store
  root := .table T
  root_lt i hi := by cases hi; exact hT
  store_lt i tbl k j htbl hk := (h i k _ (get_table.mpr ⟨tbl, htbl, hk⟩)).2.2 j rfl
  finite := by
    refine ⟨trivial, fun i tbl k v htbl hk => ?_⟩
    obtain ⟨hkey, hval, -⟩ := h i k v (get_table.mpr ⟨tbl, htbl, hk⟩)
    exact ⟨hkey, hval⟩

theorem Orders.enumerates (horder : Orders order) (h : Sound lua) {T : ℕ}
    (hT : T < lua.store.length) : (h.tables hT).Enumerates (order lua) where
  nodup i _ := horder.nodup lua i
  mem i tbl htbl k v := by
    rw [horder.mem, get_table]
    constructor
    · intro ⟨tbl', htbl', hk⟩
      rw [show lua.store[i]? = some tbl from htbl] at htbl'
      rw [Option.some.inj htbl']
      exact hk
    · intro hk
      exact ⟨tbl, htbl, hk⟩

/-- **The file** holds the tables, for whoever reads it. -/
theorem serialize_load (horder : Orders order) (hsound : Sound lua) {T : ℕ}
    (hT : T < lua.store.length) :
    ∃ text, serializeTableF (order lua) (lua.store.length + 1) (.table T) = some text ∧
      ∀ lua₀ : Heap, ∃ lua' v g, load lua₀ text = some (lua', v) ∧ lua₀.store <+: lua'.store ∧
        Iso lua.store (.table T) lua'.store v g :=
  serializeTableF_load (horder.enumerates hsound hT) (Nat.lt_succ_self _)

variable {win : Bool} (self : FileSettings win)

open FileSettings

theorem settingsOf_eq {i : ℕ} (h : self.lua.get (.table i) (field "settings") = some (.table t)) :
    self.settingsOf i = some t := by
  rw [settingsOf, h]

/-- The loop over the defaults stays in the same settings. -/
theorem merge_run (es : List (Scalar × Val Scalar))
    (hset : self.lua.get (.table self.table) (field "settings") = some (.table t))
    (hne : self.table ≠ t) (ht : t < self.lua.store.length) :
    es.foldlM merge self = some { self with lua := es.foldl (mergeDefault t) self.lua } := by
  induction es generalizing self with
  | nil => rfl
  | cons kv es ih =>
    have hstep : self.merge kv = some { self with lua := mergeDefault t self.lua kv } := by
      rw [merge, settingsOf_eq self hset]
      rfl
    rw [List.foldlM_cons, hstep]
    refine ih { self with lua := mergeDefault t self.lua kv } ?_ hne ?_
    · show (mergeDefault t self.lua kv).get (.table self.table) _ = _
      rw [mergeDefault_get ht, if_neg fun h => hne h.1, hset]
    · show t < (mergeDefault t self.lua kv).store.length
      rw [mergeDefault_length]
      exact ht

/-- The tables when the settings are put in. -/
def held (self : FileSettings win) (t : ℕ) : Heap :=
  self.lua.put (some (self.table, field "settings")) (.table t)

/-- What `save_table` leaves in the tables. -/
structure Saved (fs : FileSettings win) (t p : ℕ) (C Y : LString) (Ps : List LString)
    (lua : Heap) : Prop where
  paths : Paths lua t p (getportable fs.basepath C) (getportable fs.basepath Y)
    (Ps.map (getportable fs.basepath))
  kin : Kin (held fs t) lua
  rest : ∀ k, k ≠ field "SCpath" → k ≠ field "SC_SYNTHDEF_PATH" →
    lua.get (.table t) k = fs.lua.get (.table t) k
  settings : ∀ i, lua.get (.table i) (field "settings") =
    (held fs t).get (.table i) (field "settings")

theorem save_spec (order : Heap → ℕ → List (Scalar × Val Scalar))
    (hT : self.table < self.lua.store.length) (h : Paths self.lua t p C Y Ps)
    (hne : self.table ≠ t) (hnp : self.table ≠ p) :
    ∃ lua, Saved self t p C Y Ps lua ∧ self.save_table order (ascii "settings") (.table t) =
      ({ self with lua := lua }).write order := by
  have hheld : ∀ i k, (held self t).get (.table i) k =
      if i = self.table ∧ k = field "settings" then some (.table t)
      else self.lua.get (.table i) k := get_put hT _ _
  have htop : ∀ k, (held self t).get (.table t) k = self.lua.get (.table t) k := by
    intro k
    rw [hheld, if_neg fun heq => hne heq.1.symm]
  have hpaths : Paths (held self t) t p C Y Ps := by
    refine h.congr (length_put_some _ _ _ _) (fun k _ => htop k) fun k => ?_
    rw [hheld, if_neg fun heq => hnp heq.1.symm]
  have hset : (held self t).get (.table self.table) (field "settings") = some (.table t) := by
    rw [hheld, if_pos ⟨rfl, rfl⟩]
  obtain ⟨lua, heach, hpaths', hkin, hrest, hother⟩ := eachPath_spec hpaths
    (getportable self.basepath)
  refine ⟨lua, ⟨hpaths', hkin, fun k hC hY => ?_, fun i => ?_⟩, ?_⟩
  · rw [hrest k hC hY, htop]
  · by_cases hi : i = t
    · rw [hi, hrest _ (by decide) (by decide)]
    · by_cases hp : i = p
      · -- a list has no field
        have hnone : ∀ {lua : Heap} {Ps : List LString}, IsList lua p Ps →
            lua.get (.table p) (field "settings") = none := by
          intro lua Ps hlist
          refine Option.eq_none_iff_forall_ne_some.mpr fun v hv => ?_
          obtain ⟨j, P, -, hk, -⟩ := (hlist _ _).mp hv
          cases hk
        rw [hp, hnone hpaths'.plugins, hnone hpaths.plugins]
      · exact hother i hi hp _
  · have hself := settingsOf_eq { self with lua := held self t } hset
    show (abs2portable { self with lua := held self t }).bind _ = _
    rw [abs2portable, hself, Option.bind_some, heach]
    rfl

theorem write_eq {text : LString} (hw : self.writable = true)
    (h : serializeTableF (order self.lua) (self.lua.store.length + 1) (.table self.table) =
      some text) : self.write order = some { self with file := some text } := by
  rw [FileSettings.write, if_pos hw, h]
  rfl

/-- **Reading** makes new tables, and fills in the defaults. -/
theorem read_spec (horder : Orders order) (hsound : Sound self.lua) {text : LString}
    (hfile : self.file = some text)
    (htext : serializeTableF (order self.lua) (self.lua.store.length + 1) (.table self.table) =
      some text)
    (hset : self.lua.get (.table self.table) (field "settings") = some (.table t))
    (hne : self.table ≠ t) (hnp : self.table ≠ p) {d : ℕ}
    (hd : self.lua.get (.table self.defaults) (field "settings") = some (.table d))
    (h : Paths self.lua t p C Y Ps) :
    ∃ lua' T t' p' g, self.read order = some { self with lua := lua', table := T } ∧
      lua'.get (.table T) (field "settings") = some (.table t') ∧ T ≠ t' ∧ T ≠ p' ∧
      Paths lua' t' p' C Y Ps ∧ ∀ k, lua'.get (.table t') k =
        merged ((self.lua.get (.table t) k).map (Val.map g)) (self.lua.get (.table d) k) := by
  obtain ⟨text', htext', hload⟩ := serialize_load horder hsound (get_lt hset)
  obtain rfl := Option.some.inj (htext.symm.trans htext')
  obtain ⟨lua₁, v, g, hlua₁, hprefix, hiso⟩ := hload self.lua
  -- the copies
  have hTbelow : Below self.lua.store (.table self.table) self.table := .top rfl
  obtain ⟨tbl, htbl, hlookup⟩ := get_table.mp hset
  have htbelow : Below self.lua.store (.table self.table) t := .inside hTbelow htbl hlookup
  obtain ⟨tbl', htbl', hlookup'⟩ := get_table.mp h.list
  have hpbelow : Below self.lua.store (.table self.table) p := .inside htbelow htbl' hlookup'
  have hpaths₁ : Paths lua₁ (g t) (g p) C Y Ps := h.iso hiso htbelow hpbelow
  have hset₁ : lua₁.get (.table (g self.table)) (field "settings") = some (.table (g t)) := by
    rw [hiso.get hTbelow, hset]
    rfl
  have hneg : g self.table ≠ g t := fun heq => hne (hiso.inj _ _ hTbelow htbelow heq)
  have hnpg : g self.table ≠ g p := fun heq => hnp (hiso.inj _ _ hTbelow hpbelow heq)
  have hlt : g t < lua₁.store.length := get_lt hpaths₁.scpath
  -- the defaults
  have hd₁ : lua₁.get (.table self.defaults) (field "settings") = some (.table d) := by
    rw [get_grown hprefix (get_lt hd), hd]
  have hD : ∀ k w, (k, w) ∈ order lua₁ d ↔ self.lua.get (.table d) k = some w := by
    intro k w
    rw [horder.mem, get_grown hprefix ((hsound _ _ _ hd).2.2 d rfl)]
  let lua₂ := (order lua₁ d).foldl (mergeDefault (g t)) lua₁
  have hget₂ : ∀ i k, lua₂.get (.table i) k = if i = g t then
      merged (lua₁.get (.table (g t)) k) (self.lua.get (.table d) k) else lua₁.get (.table i) k :=
    mergeDefaults_get (horder.nodup _ _) hD hlt
  refine ⟨lua₂, g self.table, g t, g p, g, ?_, ?_, hneg, hnpg, ?_, fun k => ?_⟩
  · have hrun := merge_run { self with lua := lua₁, table := g self.table } (order lua₁ d) hset₁
      hneg hlt
    rw [hfile] at hrun
    rw [FileSettings.read, hfile]
    show (load self.lua text).bind _ = _
    rw [hlua₁, hiso.value]
    show (settingsOf { self with lua := lua₁, table := g self.table } self.defaults).bind _ = _
    rw [settingsOf_eq { self with lua := lua₁, table := g self.table } hd₁, Option.bind_some]
    exact hrun
  · rw [hget₂, if_neg hneg, hset₁]
  · refine hpaths₁.congr (mergeDefaults_length _ _) (fun k hk => ?_) fun k => ?_
    · rw [hget₂, if_pos rfl]
      simp only [List.mem_cons, List.not_mem_nil, or_false] at hk
      rcases hk with rfl | rfl | rfl
      · exact merged_of_truth hpaths₁.scpath rfl
      · exact merged_of_truth hpaths₁.synthdefs rfl
      · exact merged_of_truth hpaths₁.list rfl
    · rw [hget₂, if_neg hpaths₁.ne.symm]
  · rw [hget₂, if_pos rfl, hiso.get htbelow]

theorem portable2abs_spec
    (hset : self.lua.get (.table self.table) (field "settings") = some (.table t))
    (hne : self.table ≠ t) (hnp : self.table ≠ p) (h : Paths self.lua t p C Y Ps) :
    ∃ lua', self.portable2abs = some { self with lua := lua' } ∧
      lua'.get (.table self.table) (field "settings") = some (.table t) ∧
      Paths lua' t p (getabs self.basepath C) (getabs self.basepath Y)
        (Ps.map (getabs self.basepath)) ∧
      ∀ k, k ≠ field "SCpath" → k ≠ field "SC_SYNTHDEF_PATH" →
        lua'.get (.table t) k = zeroed k (self.lua.get (.table t) k) := by
  obtain ⟨lua₁, heach, hpaths₁, -, hrest₁, hother₁⟩ := eachPath_spec h (getabs self.basepath)
  let lua₂ := orZero t (field "SC_NINS") (orZero t (field "SC_NOUTS") lua₁)
  have hget₂ : ∀ i k, lua₂.get (.table i) k = if i = t then zeroed k (lua₁.get (.table t) k)
      else lua₁.get (.table i) k := channels_get (get_lt hpaths₁.scpath)
  refine ⟨lua₂, ?_, ?_, ?_, fun k hC hY => ?_⟩
  · rw [portable2abs, settingsOf_eq self hset, Option.bind_some, heach]
    rfl
  · rw [hget₂, if_neg hne, hother₁ _ hne hnp, hset]
  · have hlen : lua₂.store.length = lua₁.store.length := by
      rw [orZero_length, orZero_length]
    refine hpaths₁.congr hlen (fun k hk => ?_) fun k => ?_
    · rw [hget₂, if_pos rfl, zeroed, if_neg]
      simp only [List.mem_cons, List.not_mem_nil, or_false] at hk
      rcases hk with rfl | rfl | rfl
      · decide
      · decide
      · decide
    · rw [hget₂, if_neg h.ne.symm]
  · rw [hget₂, if_pos rfl, hrest₁ k hC hY]

/-- **Reading back**: the paths are made absolute, the other values go through the defaults. -/
theorem load_spec (horder : Orders order) (hsound : Sound self.lua) {text : LString}
    (hfile : self.file = some text)
    (htext : serializeTableF (order self.lua) (self.lua.store.length + 1) (.table self.table) =
      some text)
    (hset : self.lua.get (.table self.table) (field "settings") = some (.table t))
    (hne : self.table ≠ t) (hnp : self.table ≠ p) {d : ℕ}
    (hd : self.lua.get (.table self.defaults) (field "settings") = some (.table d))
    (h : Paths self.lua t p C Y Ps) :
    ∃ loaded t' p' g, self.load_table order (ascii "settings") = some (loaded, some (.table t')) ∧
      Paths loaded.lua t' p' (getabs self.basepath C) (getabs self.basepath Y)
        (Ps.map (getabs self.basepath)) ∧
      ∀ k, k ≠ field "SCpath" → k ≠ field "SC_SYNTHDEF_PATH" → loaded.lua.get (.table t') k =
        zeroed k (merged ((self.lua.get (.table t) k).map (Val.map g))
          (self.lua.get (.table d) k)) := by
  obtain ⟨lua₁, T, t', p', g, hread, hset₁, hne₁, hnp₁, hpaths₁, hget₁⟩ := read_spec self horder
    hsound hfile htext hset hne hnp hd h
  obtain ⟨lua₂, habs, hset₂, hpaths₂, hget₂⟩ := portable2abs_spec
    { self with lua := lua₁, table := T } hset₁ hne₁ hnp₁ hpaths₁
  refine ⟨{ self with lua := lua₂, table := T }, t', p', g, ?_, hpaths₂, fun k hC hY => ?_⟩
  · rw [load_table, hread, Option.bind_some, habs]
    exact congrArg (fun v => some (_, v)) hset₂
  · rw [hget₂ k hC hY]
    show zeroed k (lua₁.get (.table t') k) = _
    rw [hget₁]

end Run

end Lua2SC.Settings

import Lua2SC.Settings.FileSettings

/-!
# Settings that are saved and loaded

`save_table` and `load_table` one after the other, on the same file. The settings that are
loaded are in new tables, and are those that were saved (`Iso`) but for three things
(`ComesBack`): a path that does not survive the base path, a value the defaults have and the
settings have not, or have as `false`, and no or a `false` number of channels. `save_load_iff`
says that there is nothing else.
-/

namespace Lua2SC.Settings

open Lua2SC.Lua Lua2SC.TableGraph Lua2SC.SerializeTable

/-! ## What comes back -/

section Back

variable {win : Bool} {lua lua' : Heap} {t p t' p' : ℕ} {C Y C' Y' : LString}
  {Ps Ps' : List LString}

/-- A settings table: constants, and a list of plugin paths. The paths are absolute and
normalised. -/
structure IsSettings (win : Bool) (lua : Heap) (t p : ℕ) (C Y : LString) (Ps : List LString) : Prop
    extends Paths lua t p C Y Ps where
  isPath : ∀ P ∈ C :: Y :: Ps, IsPath win P
  constants : ∀ k v, lua.get (.table t) k = some v → k ≠ field "SC_PLUGIN_PATH" → ∃ a, v = .leaf a

theorem IsList.map_eq (h : IsList lua p Ps) (f : ℕ → ℕ) (k : Scalar) :
    (lua.get (.table p) k).map (Val.map f) = lua.get (.table p) k := by
  cases hv : lua.get (.table p) k with
  | none => rfl
  | some v =>
    obtain ⟨i, P, -, -, rfl⟩ := (h k v).mp hv
    rfl

theorem IsList.eq (h : IsList lua p Ps) (h' : IsList lua' p' Ps')
    (hget : ∀ k, lua'.get (.table p') k = lua.get (.table p) k) : Ps' = Ps := by
  have hmem : ∀ {lua : Heap} {p : ℕ} {Ps : List LString}, IsList lua p Ps → ∀ (i : ℕ) (P : LString),
      Ps[i]? = some P ↔ lua.get (.table p) (index (i + 1)) = some (str P) := by
    intro lua p Ps h i P
    rw [h]
    constructor
    · intro hP
      exact ⟨i, P, hP, rfl, rfl⟩
    · intro ⟨j, Q, hQ, hij, hPQ⟩
      rw [Nat.succ_injective (index_inj hij), hQ, Scalar.string.inj (Val.leaf.inj hPQ)]
  refine List.ext_getElem? fun i => Option.ext fun P => ?_
  rw [hmem h', hget, ← hmem h]

/-- Below the settings there is the list and nothing else. -/
theorem IsSettings.below (h : IsSettings win lua t p C Y Ps) {i : ℕ}
    (hi : Below lua.store (.table t) i) : i = t ∨ i = p := by
  induction hi with
  | top heq => exact .inl (Val.table.inj heq).symm
  | @inside i j tbl k _ htbl hk ih =>
    have hget : lua.get (.table i) k = some (.table j) := get_table.mpr ⟨tbl, htbl, hk⟩
    rcases ih with rfl | rfl
    · by_cases hlist : k = field "SC_PLUGIN_PATH"
      · rw [hlist, h.list] at hget
        exact .inr (Val.table.inj (Option.some.inj hget)).symm
      · obtain ⟨a, ha⟩ := h.constants k _ hget hlist
        cases ha
    · obtain ⟨_, _, _, _, hstr⟩ := (h.plugins k _).mp hget
      cases hstr

/-- Constants have no names to change. -/
theorem IsSettings.map_eq (h : IsSettings win lua t p C Y Ps) (f : ℕ → ℕ) {k : Scalar}
    (hk : k ≠ field "SC_PLUGIN_PATH") :
    (lua.get (.table t) k).map (Val.map f) = lua.get (.table t) k := by
  cases hv : lua.get (.table t) k with
  | none => rfl
  | some v =>
    obtain ⟨a, rfl⟩ := h.constants k v hv hk
    rfl

theorem IsSettings.same_of_iso (h : IsSettings win lua t p C Y Ps) (h' : Paths lua' t' p' C' Y' Ps')
    {f : ℕ → ℕ} (hiso : Iso lua.store (.table t) lua'.store (.table t') f) :
    (C' = C ∧ Y' = Y ∧ Ps' = Ps) ∧
      ∀ k, k ≠ field "SCpath" → k ≠ field "SC_SYNTHDEF_PATH" → k ≠ field "SC_PLUGIN_PATH" →
        lua'.get (.table t') k = lua.get (.table t) k := by
  obtain ⟨tbl, htbl, hlookup⟩ := get_table.mp h.list
  have htop : Below lua.store (.table t) t := .top rfl
  have hlist : Below lua.store (.table t) p := .inside htop htbl hlookup
  have hft : f t = t' := (Val.table.inj hiso.value).symm
  have hget := hiso.get htop
  rw [hft] at hget
  have hfp : f p = p' := by
    have hp := hget (field "SC_PLUGIN_PATH")
    rw [h.list, h'.list] at hp
    exact (Val.table.inj (Option.some.inj hp)).symm
  have hplugins := hiso.get hlist
  rw [hfp] at hplugins
  refine ⟨⟨?_, ?_, h.plugins.eq h'.plugins fun k => ?_⟩, fun k _ _ hk => ?_⟩
  · have hC := hget (field "SCpath")
    rw [h.scpath, h'.scpath] at hC
    exact Scalar.string.inj (Val.leaf.inj (Option.some.inj hC))
  · have hY := hget (field "SC_SYNTHDEF_PATH")
    rw [h.synthdefs, h'.synthdefs] at hY
    exact Scalar.string.inj (Val.leaf.inj (Option.some.inj hY))
  · rw [hplugins, h.plugins.map_eq]
  · rw [hget, h.map_eq f hk]

theorem IsSettings.iso_of_same (h : IsSettings win lua t p C Y Ps) (h' : Paths lua' t' p' C Y Ps)
    (hrest : ∀ k, k ≠ field "SCpath" → k ≠ field "SC_SYNTHDEF_PATH" → k ≠ field "SC_PLUGIN_PATH" →
      lua'.get (.table t') k = lua.get (.table t) k) :
    ∃ f, Iso lua.store (.table t) lua'.store (.table t') f := by
  let f : ℕ → ℕ := fun i => if i = t then t' else p'
  have hft : f t = t' := if_pos rfl
  have hfp : f p = p' := if_neg h.ne.symm
  have hget : ∀ k, lua'.get (.table t') k = (lua.get (.table t) k).map (Val.map f) := by
    intro k
    by_cases hkp : k = field "SC_PLUGIN_PATH"
    · rw [hkp, h.list, h'.list, Option.map_some, Val.map, hfp]
    · rw [h.map_eq f hkp]
      by_cases hkC : k = field "SCpath"
      · rw [hkC, h.scpath, h'.scpath]
      · by_cases hkY : k = field "SC_SYNTHDEF_PATH"
        · rw [hkY, h.synthdefs, h'.synthdefs]
        · exact hrest k hkC hkY hkp
  have hplugins : ∀ k, lua'.get (.table p') k = (lua.get (.table p) k).map (Val.map f) := by
    intro k
    rw [h.plugins.map_eq]
    refine Option.ext fun v => ?_
    rw [h'.plugins k v, h.plugins k v]
  refine ⟨f, by rw [Val.map, hft], fun i j hi hj heq => ?_, fun i hi => ?_⟩
  · rcases h.below hi with rfl | rfl
    · rcases h.below hj with rfl | rfl
      · rfl
      · exact absurd (hft.symm.trans (heq.trans hfp)) h'.ne
    · rcases h.below hj with rfl | rfl
      · exact absurd (hft.symm.trans (heq.symm.trans hfp)) h'.ne
      · rfl
  · rcases h.below hi with rfl | rfl
    · rw [hft]
      exact table_of_get (get_lt h.scpath) (get_lt h'.scpath) hget
    · rw [hfp]
      exact table_of_get h.lt h'.lt hplugins

/-- **The same settings**: the same paths, and the same values otherwise. -/
theorem IsSettings.iso_iff (h : IsSettings win lua t p C Y Ps) (h' : Paths lua' t' p' C' Y' Ps') :
    (∃ f, Iso lua.store (.table t) lua'.store (.table t') f) ↔ (C' = C ∧ Y' = Y ∧ Ps' = Ps) ∧
      ∀ k, k ≠ field "SCpath" → k ≠ field "SC_SYNTHDEF_PATH" → k ≠ field "SC_PLUGIN_PATH" →
        lua'.get (.table t') k = lua.get (.table t) k := by
  constructor
  · intro ⟨f, hiso⟩
    exact h.same_of_iso h' hiso
  · intro ⟨⟨hC, hY, hPs⟩, hrest⟩
    rw [hC, hY, hPs] at h'
    exact h.iso_of_same h' hrest

theorem truth_eq_false {v : Val Scalar} : truth v = false ↔ v = .leaf (.bool false) := by
  cases v with
  | table i => simp [truth]
  | leaf a =>
    cases a with
    | bool b => simp [truth]
    | number x => simp [truth]
    | string s => simp [truth]

/-- A default changes nothing only if there is a value, and that one is `false` only where the
default is. -/
theorem merged_eq_iff {x d : Option (Val Scalar)} :
    merged x d = x ↔ ∀ w, d = some w → ∃ v, x = some v ∧ (truth w = true → truth v = true) := by
  cases d with
  | none => exact iff_of_true (merged_none x) fun w hw => by cases hw
  | some w =>
    cases x with
    | none =>
      refine iff_of_false (Option.some_ne_none w) fun h => ?_
      obtain ⟨v, hv, -⟩ := h w rfl
      cases hv
    | some v =>
      cases hv : truth v with
      | true => exact iff_of_true (merged_of_truth rfl hv) fun _ _ => ⟨v, rfl, fun _ => hv⟩
      | false =>
        have hmerged : merged (some v) (some w) = some w := by
          rw [merged, Option.any_some, if_neg (by rw [hv]; exact Bool.false_ne_true)]
          rfl
        rw [hmerged, Option.some.injEq, truth_eq_false.mp hv, ← truth_eq_false]
        constructor
        · intro hw w' hw'
          rw [← Option.some.inj hw', hw]
          exact ⟨_, rfl, fun h => absurd h Bool.false_ne_true⟩
        · intro h
          obtain ⟨v', hv', himp⟩ := h w rfl
          rw [← Option.some.inj hv'] at himp
          exact Bool.eq_false_iff.mpr fun hw => Bool.false_ne_true (himp hw)

/-- Of a default only its truth matters. -/
theorem forall_truth_iff {Q : Bool → Prop} {d d' : Option (Val Scalar)}
    (h : d.map truth = d'.map truth) :
    (∀ w, d = some w → Q (truth w)) ↔ ∀ w, d' = some w → Q (truth w) := by
  have hmap : ∀ d : Option (Val Scalar),
      (∀ w, d = some w → Q (truth w)) ↔ ∀ b, d.map truth = some b → Q b := by
    intro d
    constructor
    · intro hd b hb
      obtain ⟨w, hw, rfl⟩ := Option.map_eq_some_iff.mp hb
      exact hd w hw
    · intro hd w hw
      exact hd _ (Option.map_eq_some_iff.mpr ⟨w, hw, rfl⟩)
  rw [hmap d, hmap d', h]

/-- A number of channels is left alone if there is one. -/
theorem zeroed_eq_iff {k : Scalar} {x d : Option (Val Scalar)} :
    zeroed k (merged x d) = x ↔ merged x d = x ∧
      (IsChannels k → ∃ v, x = some v ∧ truth v = true) := by
  unfold zeroed
  split
  next hk =>
    constructor
    · intro heq
      have htruth : ∃ v, x = some v ∧ truth v = true := by
        refine ⟨_, heq.symm, ?_⟩
        cases hf : (merged x d).filter truth with
        | none => rfl
        | some u => exact (Option.filter_eq_some_iff.mp hf).2
      obtain ⟨v, hx, hv⟩ := htruth
      exact ⟨merged_of_truth hx hv, fun _ => ⟨v, hx, hv⟩⟩
    · intro ⟨heq, h⟩
      obtain ⟨v, hx, hv⟩ := h hk
      rw [heq, hx, Option.filter_some, if_pos hv]
      rfl
  next hk => exact ⟨fun h => ⟨h, fun hk' => absurd hk' hk⟩, fun h => h.1⟩

end Back

/-! ## Saving and loading -/

section SaveLoad

variable {win : Bool} {self : FileSettings win} {t p : ℕ} {C Y : LString} {Ps : List LString}
  {order : Heap → ℕ → List (Scalar × Val Scalar)}

/-- The object between two calls. -/
structure Ready (fs : FileSettings win) : Prop where
  sound : Sound fs.lua
  table_lt : fs.table < fs.lua.store.length
  defaults : ∃ d, fs.lua.get (.table fs.defaults) (field "settings") = some (.table d)

/-- When the settings `t` with the paths `Ps` come back. -/
structure ComesBack (fs : FileSettings win) (t : ℕ) (Ps : List LString) : Prop where
  paths : ∀ P ∈ Ps, Survives fs.basepath P
  /-- What the defaults have is in the settings, and `false` only where it is in the defaults. -/
  defaults : ∀ d, (held fs t).get (.table fs.defaults) (field "settings") = some (.table d) →
    ∀ k w, (held fs t).get (.table d) k = some w →
      ∃ v, fs.lua.get (.table t) k = some v ∧ (truth w = true → truth v = true)
  /-- The numbers of channels are there. -/
  channels : ∀ k, IsChannels k → ∃ v, fs.lua.get (.table t) k = some v ∧ truth v = true

theorem held_defaults (h : Ready self) (t : ℕ) :
    ∃ d, (held self t).get (.table self.defaults) (field "settings") = some (.table d) := by
  obtain ⟨d, hd⟩ := h.defaults
  have hget := get_put h.table_lt (field "settings") (.table t) self.defaults (field "settings")
  by_cases htable : self.defaults = self.table
  · exact ⟨t, hget.trans (if_pos ⟨htable, rfl⟩)⟩
  · exact ⟨d, (hget.trans (if_neg fun heq => htable heq.1)).trans hd⟩

/-- **Saving and loading**: the settings that come back, path by path and value by value. -/
theorem save_load_spec (horder : Orders order) (hready : Ready self)
    (hwritable : self.writable = true) (h : Paths self.lua t p C Y Ps) (hne : self.table ≠ t)
    (hnp : self.table ≠ p) {d : ℕ}
    (hd : (held self t).get (.table self.defaults) (field "settings") = some (.table d)) :
    ∃ (saved loaded : FileSettings win) (t' p' : ℕ) (g : ℕ → ℕ) (D : Scalar → Option (Val Scalar)),
      self.save_table order (ascii "settings") (.table t) = some saved ∧
      saved.load_table order (ascii "settings") = some (loaded, some (.table t')) ∧
      Paths loaded.lua t' p' (getabs self.basepath (getportable self.basepath C))
        (getabs self.basepath (getportable self.basepath Y))
        (Ps.map fun P => getabs self.basepath (getportable self.basepath P)) ∧
      (∀ k, (D k).map truth = ((held self t).get (.table d) k).map truth) ∧
      ∀ k, k ≠ field "SCpath" → k ≠ field "SC_SYNTHDEF_PATH" → loaded.lua.get (.table t') k =
        zeroed k (merged ((self.lua.get (.table t) k).map (Val.map g)) (D k)) := by
  obtain ⟨lua, hsaved, hsave⟩ := save_spec self order hready.table_lt h hne hnp
  have hheld : Sound (held self t) := by
    refine hready.sound.put hready.table_lt (k := field "settings") trivial trivial fun j hj => ?_
    rw [← Val.table.inj hj]
    exact get_lt h.scpath
  have hsound : Sound lua := hsaved.kin.sound hheld
  have hset : lua.get (.table self.table) (field "settings") = some (.table t) := by
    rw [hsaved.settings]
    exact (get_put hready.table_lt _ _ _ _).trans (if_pos ⟨rfl, rfl⟩)
  obtain ⟨text, htext, -⟩ := serialize_load horder hsound (get_lt hset)
  have hwrite := write_eq { self with lua := lua } hwritable htext
  obtain ⟨loaded, t', p', g, hload, hpaths, hrest⟩ := load_spec
    { self with lua := lua, file := some text } horder hsound rfl htext hset hne hnp
    (by rw [hsaved.settings]; exact hd) hsaved.paths
  refine ⟨_, loaded, t', p', g, fun k => lua.get (.table d) k, hsave.trans hwrite, hload, ?_,
    fun k => hsaved.kin.truth d k, fun k hC hY => ?_⟩
  · rw [List.map_map] at hpaths
    exact hpaths
  · rw [hrest k hC hY]
    show zeroed k (merged ((lua.get (.table t) k).map (Val.map g)) _) = _
    rw [hsaved.rest k hC hY]

theorem paths_iff (base : BasePath win) (hP : ∀ P ∈ Ps, IsPath win P) :
    (Ps.map fun P => getabs base (getportable base P)) = Ps ↔ ∀ P ∈ Ps, Survives base P := by
  have hid : (Ps.map fun P => getabs base (getportable base P)) = Ps ↔
      ∀ P ∈ Ps, getabs base (getportable base P) = P := by
    rw [← List.map_inj_left, List.map_id']
  rw [hid]
  exact forall₂_congr fun P hmem => getabs_getportable_iff (hP P hmem)

end SaveLoad

/-! ## An object -/

/-- `pairs` in the order of the table's entries. -/
def entriesOrder (lua : Heap) (i : ℕ) : List (Scalar × Val Scalar) :=
  (lua.store[i]?).elim [] fun tbl => tbl.entries.map fun e => (e.1, e.2)

theorem entriesOrder_orders : Orders entriesOrder where
  nodup lua i := by
    unfold entriesOrder
    cases lua.store[i]? with
    | none => exact List.nodup_nil
    | some tbl =>
      show ((tbl.entries.map fun e => (e.1, e.2)).map Prod.fst).Nodup
      rw [List.map_map]
      exact tbl.nodupKeys
  mem lua i k v := by
    rw [get_table]
    unfold entriesOrder
    cases lua.store[i]? with
    | none => simp
    | some tbl =>
      show (k, v) ∈ tbl.entries.map (fun e => (e.1, e.2)) ↔ _
      rw [List.mem_map]
      constructor
      · intro ⟨e, he, heq⟩
        obtain ⟨hk, hv⟩ := Prod.mk.inj heq
        rw [← hk, ← hv]
        exact ⟨tbl, rfl, AList.mem_lookup_iff.mpr he⟩
      · intro ⟨tbl', htbl, hlookup⟩
        rw [← Option.some.inj htbl] at hlookup
        exact ⟨⟨k, v⟩, AList.mem_lookup_iff.mp hlookup, rfl⟩

/-- The path `/sc/`. -/
def home : BasePath false where
  path := ascii "/sc/"
  isPath := isPath_of_clean rfl (by decide) (by decide)
  ends := ⟨ascii "/sc", rfl⟩

/-- Settings under `1` with a flag that is `false`, and their list under `2`; the defaults under
`3`, whose flag is `b`. -/
def tables (b : Bool) : List (List (Scalar × Val Scalar)) :=
  [[],
    [(field "SCpath", str (ascii "/sc/s")), (field "SC_SYNTHDEF_PATH", str (ascii "/d")),
      (field "SC_PLUGIN_PATH", .table 2), (field "SC_NOUTS", .leaf (index 1)),
      (field "SC_NINS", .leaf (index 1)), (field "flag", .leaf (.bool false))],
    [(index 1, str (ascii "/sc/p"))],
    [(field "settings", .table 4)],
    [(field "flag", .leaf (.bool b))]]

def object (b : Bool) : FileSettings false where
  basepath := home
  defaults := 3
  table := 0
  lua := { root := none, store := (tables b).map ofPairs }
  file := none
  writable := true

theorem object_get (b : Bool) (i : ℕ) (k : Scalar) (v : Val Scalar) :
    (object b).lua.get (.table i) k = some v ↔ ∃ es, (tables b)[i]? = some es ∧ (k, v) ∈ es := by
  have hnodup : ∀ es ∈ tables b, (es.map Prod.fst).Nodup := by
    cases b with
    | true => decide
    | false => decide
  have hstore : (object b).lua.store = (tables b).map ofPairs := rfl
  rw [get_table, hstore, List.getElem?_map]
  cases hes : (tables b)[i]? with
  | none => simp
  | some es =>
    have hlookup := lookup_ofPairs (hnodup es (List.mem_of_getElem? hes)) k v
    simpa using hlookup

theorem index_one_finite : (index 1).Finite := by
  refine ⟨((1 : ℕ) : ℚ), rfl, ?_⟩
  rw [Nat.cast_one]
  refine ⟨⟨1, 0, ?_, ?_, ?_⟩, ?_⟩
  · norm_num [Decimal.binary64]
  · norm_num [Decimal.binary64]
  · norm_num [Decimal.binary64]
  · rw [abs_one]
    exact one_lt_pow₀ one_lt_two (by decide)

theorem object_ready (b : Bool) : Ready (object b) where
  sound i k v hget := by
    have hall : ∀ es ∈ tables b, ∀ kv ∈ es, kv.1.Finite ∧ kv.2.Forall Scalar.Finite ∧
        ∀ j, kv.2 = .table j → j < 5 := by
      have hfield : ∀ s, (field s).Finite := fun _ => trivial
      have hbool : ∀ b, (Scalar.bool b).Finite := fun _ => trivial
      have hstring : ∀ s, (Scalar.string s).Finite := fun _ => trivial
      simp [-Prod.forall, tables, str, Val.Forall, hfield, hbool, hstring, index_one_finite]
    obtain ⟨es, hes, hmem⟩ := (object_get b i k v).mp hget
    exact hall es (List.mem_of_getElem? hes) (k, v) hmem
  table_lt := Nat.zero_lt_succ 4
  defaults := ⟨4, (object_get b 3 _ _).mpr ⟨_, rfl, by simp⟩⟩

theorem object_settings (b : Bool) : IsSettings false (object b).lua 1 2 (ascii "/sc/s")
    (ascii "/d") [ascii "/sc/p"] where
  ne := by decide
  scpath := (object_get b 1 _ _).mpr ⟨_, rfl, by simp⟩
  synthdefs := (object_get b 1 _ _).mpr ⟨_, rfl, by simp⟩
  list := (object_get b 1 _ _).mpr ⟨_, rfl, by simp⟩
  lt := Nat.lt_of_sub_ne_zero (n := 5) (by decide)
  plugins k v := by
    rw [object_get]
    constructor
    · intro ⟨es, hes, hmem⟩
      cases hes
      obtain ⟨hk, hv⟩ := Prod.mk.inj (List.mem_singleton.mp hmem)
      exact ⟨0, _, rfl, hk, hv⟩
    · intro ⟨i, P, hP, hk, hv⟩
      cases i with
      | zero =>
        cases hP
        exact ⟨_, rfl, List.mem_singleton.mpr (Prod.ext hk hv)⟩
      | succ i => cases hP
  isPath P hP := by
    simp only [List.mem_cons, List.not_mem_nil, or_false] at hP
    rcases hP with rfl | rfl | rfl
    · exact isPath_of_clean rfl (by decide) (by decide)
    · exact isPath_of_clean rfl (by decide) (by decide)
    · exact isPath_of_clean rfl (by decide) (by decide)
  constants k v hget hk := by
    obtain ⟨es, hes, hmem⟩ := (object_get b 1 k v).mp hget
    cases hes
    simp only [List.mem_cons, List.not_mem_nil, or_false, Prod.mk.injEq] at hmem
    rcases hmem with h | h | h | h | h | h
    · exact ⟨_, h.2⟩
    · exact ⟨_, h.2⟩
    · exact absurd h.1 hk
    · exact ⟨_, h.2⟩
    · exact ⟨_, h.2⟩
    · exact ⟨_, h.2⟩

theorem object_held (b : Bool) (i : ℕ) (k : Scalar) : (held (object b) 1).get (.table i) k =
    if i = 0 ∧ k = field "settings" then some (.table 1) else (object b).lua.get (.table i) k :=
  get_put (object_ready b).table_lt _ _ _ _

theorem object_defaults (b : Bool) :
    (held (object b) 1).get (.table (object b).defaults) (field "settings") = some (.table 4) := by
  rw [object_held, if_neg fun h => Nat.succ_ne_zero 2 h.1]
  exact (object_get b 3 _ _).mpr ⟨_, rfl, by simp⟩

/-- The default is `false` as well, so everything comes back. -/
theorem object_comesBack :
    ComesBack (object false) 1 [ascii "/sc/s", ascii "/d", ascii "/sc/p"] where
  paths P hP := by
    simp only [List.mem_cons, List.not_mem_nil, or_false] at hP
    rcases hP with rfl | rfl | rfl
    · exact .inl ⟨(fun h => by cases h), ascii "s", rfl, List.cons_ne_nil _ _, rfl⟩
    · refine .inr fun pre rest h => ?_
      have hlen := congrArg List.length h
      rw [List.length_append, List.length_append] at hlen
      have hd : (ascii "/d").length = 2 := rfl
      have hsc : (object false).basepath.path.length = 4 := rfl
      omega
    · exact .inl ⟨(fun h => by cases h), ascii "p", rfl, List.cons_ne_nil _ _, rfl⟩
  defaults d hd k w hw := by
    obtain rfl : 4 = d := Val.table.inj (Option.some.inj ((object_defaults false).symm.trans hd))
    rw [object_held, if_neg fun h => Nat.succ_ne_zero 3 h.1] at hw
    obtain ⟨es, hes, hmem⟩ := (object_get false 4 k w).mp hw
    cases hes
    obtain ⟨rfl, rfl⟩ := Prod.mk.inj (List.mem_singleton.mp hmem)
    exact ⟨_, (object_get false 1 _ _).mpr ⟨_, rfl, by simp⟩, id⟩
  channels k hk := by
    rcases hk with rfl | rfl
    · exact ⟨_, (object_get false 1 _ (.leaf (index 1))).mpr ⟨_, rfl, by simp⟩, rfl⟩
    · exact ⟨_, (object_get false 1 _ (.leaf (index 1))).mpr ⟨_, rfl, by simp⟩, rfl⟩

/-! ## The law -/

section Law

variable {win : Bool} {self : FileSettings win} {t p : ℕ} {C Y : LString} {Ps : List LString}
  {order : Heap → ℕ → List (Scalar × Val Scalar)}

/-- **Settings persistence**: exactly when the settings that are loaded are those saved. -/
theorem save_load_iff (horder : Orders order) (hready : Ready self)
    (hwritable : self.writable = true) (h : IsSettings win self.lua t p C Y Ps)
    (hne : self.table ≠ t) (hnp : self.table ≠ p) :
    ∃ saved loaded v, self.save_table order (ascii "settings") (.table t) = some saved ∧
      saved.load_table order (ascii "settings") = some (loaded, some v) ∧
      ((∃ f, Iso self.lua.store (.table t) loaded.lua.store v f) ↔
        ComesBack self t (C :: Y :: Ps)) := by
  obtain ⟨d, hd⟩ := held_defaults hready t
  obtain ⟨saved, loaded, t', p', g, D, hsave, hload, hpaths, hD, hrest⟩ := save_load_spec horder
    hready hwritable h.toPaths hne hnp hd
  refine ⟨saved, loaded, .table t', hsave, hload, (h.iso_iff hpaths).trans ?_⟩
  have hall := paths_iff self.basepath h.isPath
  simp only [List.map_cons, List.cons.injEq] at hall
  -- key by key
  have hkey : ∀ k, k ≠ field "SCpath" → k ≠ field "SC_SYNTHDEF_PATH" →
      k ≠ field "SC_PLUGIN_PATH" →
      (loaded.lua.get (.table t') k = self.lua.get (.table t) k ↔
        (∀ w, (held self t).get (.table d) k = some w →
          ∃ v, self.lua.get (.table t) k = some v ∧ (truth w = true → truth v = true)) ∧
        (IsChannels k → ∃ v, self.lua.get (.table t) k = some v ∧ truth v = true)) := by
    intro k hC hY hp
    rw [hrest k hC hY, h.map_eq g hp, zeroed_eq_iff, merged_eq_iff]
    exact and_congr_left fun _ => forall_truth_iff
      (Q := fun b => ∃ v, self.lua.get (.table t) k = some v ∧ (b = true → truth v = true)) (hD k)
  constructor
  · intro ⟨hsame, hvalues⟩
    refine ⟨hall.mp ⟨hsame.1, hsame.2.1, hsame.2.2⟩, fun d' hd' k w hw => ?_, fun k hk => ?_⟩
    · obtain rfl : d = d' := Val.table.inj (Option.some.inj (hd.symm.trans hd'))
      by_cases hC : k = field "SCpath"
      · exact ⟨_, hC ▸ h.scpath, fun _ => rfl⟩
      · by_cases hY : k = field "SC_SYNTHDEF_PATH"
        · exact ⟨_, hY ▸ h.synthdefs, fun _ => rfl⟩
        · by_cases hp : k = field "SC_PLUGIN_PATH"
          · exact ⟨_, hp ▸ h.list, fun _ => rfl⟩
          · exact ((hkey k hC hY hp).mp (hvalues k hC hY hp)).1 w hw
    · have hne : k ≠ field "SCpath" ∧ k ≠ field "SC_SYNTHDEF_PATH" ∧
          k ≠ field "SC_PLUGIN_PATH" := by
        rcases hk with rfl | rfl
        · decide
        · decide
      exact ((hkey k hne.1 hne.2.1 hne.2.2).mp (hvalues k hne.1 hne.2.1 hne.2.2)).2 hk
  · intro hback
    obtain ⟨hC, hY, hPs⟩ := hall.mpr hback.paths
    refine ⟨⟨hC, hY, hPs⟩, fun k hkC hkY hkp => (hkey k hkC hkY hkp).mpr ?_⟩
    exact ⟨hback.defaults d hd k, hback.channels k⟩

end Law

theorem save_load_iff_object : ∃ saved loaded v f,
    (object false).save_table entriesOrder (ascii "settings") (.table 1) = some saved ∧
      saved.load_table entriesOrder (ascii "settings") = some (loaded, some v) ∧
      Iso (object false).lua.store (.table 1) loaded.lua.store v f := by
  obtain ⟨saved, loaded, v, hsave, hload, hiff⟩ := save_load_iff entriesOrder_orders
    (object_ready false) rfl (object_settings false) (by decide) (by decide)
  obtain ⟨f, hiso⟩ := hiff.mpr object_comesBack
  exact ⟨saved, loaded, v, f, hsave, hload, hiso⟩

/-- A flag that is `false` comes back as its default. -/
theorem not_loaded_flag : Ready (object true) ∧
    IsSettings false (object true).lua 1 2 (ascii "/sc/s") (ascii "/d") [ascii "/sc/p"] ∧
    ∃ saved loaded v,
      (object true).save_table entriesOrder (ascii "settings") (.table 1) = some saved ∧
        saved.load_table entriesOrder (ascii "settings") = some (loaded, some v) ∧
        ¬∃ f, Iso (object true).lua.store (.table 1) loaded.lua.store v f := by
  have h := object_settings true
  obtain ⟨saved, loaded, t', p', g, D, hsave, hload, hpaths, hD, hrest⟩ := save_load_spec
    entriesOrder_orders (object_ready true) rfl h.toPaths (by decide) (by decide)
    (object_defaults true)
  refine ⟨object_ready true, h, saved, loaded, .table t', hsave, hload, fun hiso => ?_⟩
  have hflag : (object true).lua.get (.table 1) (field "flag") = some (.leaf (.bool false)) :=
    (object_get true 1 _ _).mpr ⟨_, rfl, by simp⟩
  have hdefault : (held (object true) 1).get (.table 4) (field "flag") =
      some (.leaf (.bool true)) := by
    rw [object_held, if_neg fun h => Nat.succ_ne_zero 3 h.1]
    exact (object_get true 4 _ _).mpr ⟨_, rfl, by simp⟩
  have hsame := ((h.iso_iff hpaths).mp hiso).2 (field "flag") (by decide) (by decide) (by decide)
  rw [hrest _ (by decide) (by decide), hflag] at hsame
  have hmerged := merged_eq_iff.mp (zeroed_eq_iff.mp hsame).1
  have hD' := hD (field "flag")
  rw [hdefault] at hD'
  obtain ⟨w, hw, htruth⟩ := Option.map_eq_some_iff.mp hD'
  obtain ⟨v, hv, himp⟩ := hmerged w hw
  have hfalse := himp htruth
  rw [← Option.some.inj hv] at hfalse
  exact Bool.false_ne_true hfalse

end Lua2SC.Settings

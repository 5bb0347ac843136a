import Lua2SC.SynthDef.Build
import Lua2SC.SynthDef.Controls
import Lua2SC.SynthDef.Write
import Lua2SC.SynthDef.Read

/-!
# The SynthDef format: written by `makeDefStr`, read by `readSCSynthString`

Writer and reader are two independent walks over one nested format. They are
put side by side field by field: `Carries w m a` says that the writer `w`
succeeds and that the reader `m`, at these bytes, returns `a`.

Three facts from the build make the walks meet. The constant pool is
numbered `1 … count`, so the constants written by `ipairs` stand where the
inputs point (`constantList_spec`). A UGen's place in `ugens` is its place in
`indugens`, so an input points at the record the reader made for that UGen.
The order is topological, so that record is there already when it is looked
up, and `Bad topological sort` is not raised (`readUGens_carries`).

The numbers have to fit the fields they are written to (`SYNTHDef.Fits`):
`int2str` raises or truncates otherwise. Floats come back up to the binary32
codec (`Float32Of`), the resample factor exactly.
-/

namespace Lua2SC.SynthDef

open Lua2SC.Lua Lua2SC.Codec Lua2SC.Format Lua2SC.Topo

/-! ## Fields -/

/-- `inp:read(len)` in front of `len` bytes. -/
theorem read_reads (bs : LString) : Format.Reads StrFile.mid (read bs.length) bs bs := by
  intro pre post
  have hsub := strSub_middle pre bs post
  unfold read StrFile.mid
  dsimp only
  have hend : (pre.length : ℤ) + 1 + bs.length - 1 = pre.length + bs.length := by ring
  rw [hend, ← List.append_assoc, hsub, List.length_append]
  push_cast
  rw [add_right_comm]

theorem readInt_carries {int : ℤ} {len : ℕ} (hlen : 0 < len) (h : FitsInt int len) :
    Carries StrFile.mid (int2str int len) (readInt len) int := by
  obtain ⟨s, hs, hslen⟩ := int2str_ok hlen h
  refine ⟨s ++ [], by rw [List.append_nil]; exact hs, ?_⟩
  have hread := read_reads s
  rw [hslen] at hread
  exact hread.bind (Format.Reads.lift (str2int_int2str hlen h hs))

theorem readFloat_carries {x : LuaNumber} {s : LString} (h : float2str x = .ok s) :
    ∃ y, Float32Of x y ∧ Carries StrFile.mid (float2str x) readFloat y := by
  obtain ⟨y, hy, hxy⟩ := float32Of_exists h
  refine ⟨y, hxy, s ++ [], by rw [List.append_nil]; exact h, ?_⟩
  have hread := read_reads s
  rw [float2str_length h] at hread
  exact hread.bind (Format.Reads.lift hy)

theorem readpstring_carries {name : LString} (h : name.length ≤ 30) :
    Carries StrFile.mid (pstring name) readpstring name := by
  have hfit : FitsInt name.length 1 := by
    unfold FitsInt
    norm_num
    omega
  obtain ⟨s, hs, hread⟩ := readInt_carries (by norm_num) hfit
  refine ⟨s ++ ([] ++ name), ?_, ?_⟩
  · unfold pstring
    rw [luaAssert_true (by omega), ok_bind, hs]
    rfl
  · exact hread.bind ((Format.Reads.lift (luaAssert_true (by omega))).bind (read_reads name))

/-! ## Constants -/

/-- Lookup is membership of a pair. -/
theorem mem_entries_iff {κ ν : Type} [DecidableEq κ] {t : LuaTable κ ν} {k : κ} {v : ν} :
    (⟨k, v⟩ : Sigma fun _ : κ => ν) ∈ t.entries ↔ t.lookup k = some v := by
  rw [← AList.mem_lookup_iff, Option.mem_def]

/-- Constants have different numbers. -/
theorem swapkeyvalue_nodup {t : LuaTable LuaNumber ℕ} {g : List UGen} (h : ConstPool g t) :
    ((t.entries.map fun kv => (kv.2, kv.1)).map Prod.fst).Nodup := by
  rw [List.map_map]
  refine List.Nodup.map_on ?_ (List.NodupKeys.nodup t.nodupKeys)
  rintro ⟨x, i⟩ hx ⟨y, j⟩ hy hij
  have hij' : i = j := hij
  subst hij'
  rw [h.inj x y i (mem_entries_iff.mp hx) (mem_entries_iff.mp hy)]

theorem lookup_swapkeyvalue {t : LuaTable LuaNumber ℕ} {g : List UGen} (h : ConstPool g t)
    (i : ℕ) (x : LuaNumber) : (swapkeyvalue t).lookup i = some x ↔ t.lookup x = some i := by
  unfold swapkeyvalue
  rw [lookup_ofPairs (swapkeyvalue_nodup h), List.mem_map, ← mem_entries_iff]
  constructor
  · rintro ⟨⟨y, j⟩, hy, heq⟩
    cases heq
    exact hy
  · intro hx
    exact ⟨⟨x, i⟩, hx, rfl⟩

/-- The written constants: constant number `i` stands at place `i`. -/
theorem constantList_spec {t : LuaTable LuaNumber ℕ} {g : List UGen} (h : ConstPool g t) :
    (constantList t).length = tablelength t ∧
      ∀ x i, t.lookup x = some i → 1 ≤ i ∧ (constantList t)[i - 1]? = some x := by
  have hlen : tablelength (swapkeyvalue t) = tablelength t := by
    unfold swapkeyvalue
    rw [tablelength_ofPairs (swapkeyvalue_nodup h), List.length_map]
    rfl
  obtain ⟨hl, hget⟩ := ipairsFrom_spec id (swapkeyvalue t) (tablelength t) (tablelength t) 1 le_rfl
    (fun j hj => by
      obtain ⟨x, hx⟩ := h.onto (1 + j) (by omega) (by omega)
      rw [id, (lookup_swapkeyvalue h _ x).mpr hx]
      rfl)
    (fun hlt => absurd hlt (Nat.lt_irrefl _))
  unfold constantList ipairs
  rw [hlen]
  refine ⟨hl, ?_⟩
  intro x i hx
  obtain ⟨h₁, h₂⟩ := h.range x i hx
  refine ⟨h₁, ?_⟩
  rw [hget (i - 1) (by omega), id, Nat.add_sub_cancel' h₁]
  exact (lookup_swapkeyvalue h i x).mpr hx

/-! ## UGens -/

/-- The output a reference stands for, from 1. -/
def Ref.outputIndex : Ref → ℕ
  | .ugen _ => 1
  | .proxy p => p.index

/-- What `spec` says of an input is what the input is: a constant with its
value, or an output of the UGen at a place of `indugens`. -/
def SameInput (b : SYNTHDef) : Input → InputSpec → Prop
  | .number x, spec => spec.i1 = 0 ∧ ∃ y, spec.valor = some y ∧ Float32Of x y
  | .ref r, spec => spec.valor = none ∧ spec.i2 = r.outputIndex ∧
      ∃ k : ℕ, spec.i1 = k + 1 ∧ b.st.indugens[k]? = some r.actualugen

/-- The rates of a UGen's outputs. -/
def outputRates (self : SYNTHDef) (v : UGen) : List (Option ℤ) :=
  if 0 < v.channels.length then
    v.channels.map fun p => (self.ugen? p.source).map (·.calcrate)
  else if v.isOutUGen then [] else [some v.calcrate]

/-- `spec` describes the UGen `u` of the SynthDef. -/
def SameUGen (b : SYNTHDef) (u : UGenId) (spec : UGenSpec) : Prop :=
  ∃ ug, b.ugen? u = some ug ∧ spec.name = ug.name ∧ spec.calcrate = ug.calcrate ∧
    spec.special = ug.specialIndex ∧ spec.inputs = ug.inputs.length ∧
    spec.outputs = ug.numOutputs ∧ List.Forall₂ (SameInput b) ug.inputs spec.inputspec ∧
    spec.outputspec.map some = outputRates b ug

/-- The numbers of one UGen fit their fields. -/
structure UGenFits (g : List UGen) (lens : ℕ) (ug : UGen) : Prop where
  name : ug.name.length ≤ 30
  calcrate : FitsInt ug.calcrate 1
  specialIndex : FitsInt ug.specialIndex 2
  inputs : FitsInt ug.inputs.length lens
  channels : FitsInt ug.channels.length lens
  outputs : ∀ r, Input.ref r ∈ ug.inputs → FitsInt (r.outputIndex - 1) lens
  sources : ∀ p ∈ ug.channels, p.source < g.length

/-- The numbers of the whole graph fit their fields. -/
structure GraphFits (g : List UGen) (lens : ℕ) : Prop where
  count : FitsInt g.length lens
  constants : FitsInt (numericInputs g).toFinset.card lens
  ugens : ∀ ug ∈ g, UGenFits g lens ug

section

variable {b : SYNTHDef} {g : List UGen} {lens : ℕ}

/-- A constant input: `-1` and its place in the pool. -/
theorem readInput_number (hlens : 0 < lens) {x y : LuaNumber} {i : ℕ}
    (hx : b.st.constants.lookup x = some i) (hi : 1 ≤ i) (hfit : FitsInt (i - 1) lens)
    (Kt : List LuaNumber) (Nt : LuaTable ℤ LString) (Ut : List UGenSpec)
    (hy : Kt[i - 1]? = some y) :
    Carries StrFile.mid (inputSpec b lens (.number x)) (readInput lens Kt Nt Ut (Ut.length + 1))
      ⟨0, i, some y, none⟩ := by
  have hat : at1 Kt i = some y := by
    unfold at1
    rw [if_pos (by exact_mod_cast hi), ← hy]
    congr 1
    omega
  have hres : resolveInput Kt Nt Ut (Ut.length + 1) (-1 + 1) (i - 1 + 1)
      = .ok ⟨0, i, some y, none⟩ := by
    unfold resolveInput
    rw [luaAssert_true (by omega), ok_bind, neg_add_cancel, if_pos rfl, sub_add_cancel, hat]
  have hspec : inputSpec b lens (.number x) = concat [int2str (-1) lens, int2str (i - 1) lens] := by
    simp only [inputSpec, hx, index, ok_bind]
  rw [hspec]
  exact (readInt_carries hlens (fitsInt_neg_one lens)).cons
    ((readInt_carries hlens hfit).cons (Carries.lift hres))

/-- An input that is a UGen, or an output of one, already read. -/
theorem readInput_ref (hlens : 0 < lens) {r : Ref} {k : ℕ}
    (hr : b.st.ugens.lookup r.actualugen = some (k + 1)) (hk : FitsInt k lens)
    (hout : FitsInt (r.outputIndex - 1) lens)
    (Kt : List LuaNumber) (Nt : LuaTable ℤ LString) (Ut : List UGenSpec) (hlt : k < Ut.length) :
    ∃ text, Carries StrFile.mid (inputSpec b lens (.ref r))
      (readInput lens Kt Nt Ut (Ut.length + 1)) ⟨k + 1, r.outputIndex, none, some text⟩ := by
  have hat : at1 Ut ((k : ℤ) + 1) = some Ut[k] := by
    unfold at1
    rw [if_pos (by omega), add_sub_cancel_right, Int.toNat_natCast]
    exact List.getElem?_eq_getElem hlt
  refine ⟨inputText Nt Ut[k] r.outputIndex, ?_⟩
  have hres : resolveInput Kt Nt Ut (Ut.length + 1) (k + 1) (r.outputIndex - 1 + 1)
      = .ok ⟨k + 1, r.outputIndex, none, some (inputText Nt Ut[k] r.outputIndex)⟩ := by
    unfold resolveInput
    rw [luaAssert_true (by omega), ok_bind, if_neg (by omega), sub_add_cancel, hat]
  have hpos : ((k + 1 : ℕ) : ℤ) - 1 = k := by push_cast; ring
  have hspec : inputSpec b lens (.ref r)
      = concat [int2str k lens, int2str (r.outputIndex - 1) lens] := by
    cases r with
    | ugen u =>
      have hu : b.st.ugens.lookup u = some (k + 1) := hr
      simp only [inputSpec, hu, index, ok_bind, hpos]
      rfl
    | proxy p =>
      have hp : b.st.ugens.lookup p.source = some (k + 1) := hr
      simp only [inputSpec, hp, index, ok_bind, hpos]
      rfl
  rw [hspec]
  exact (readInt_carries hlens hk).cons ((readInt_carries hlens hout).cons (Carries.lift hres))

theorem map_eq_of_forall₂ {α β γ : Type} {f : α → γ} {k : β → γ} {xs : List α} {ys : List β}
    (h : List.Forall₂ (fun x y => k y = f x) xs ys) : ys.map k = xs.map f := by
  induction h with
  | nil => rfl
  | cons hxy _ ih => rw [List.map_cons, List.map_cons, hxy, ih]

/-- The outputs of one UGen. -/
theorem outputSpec_carries (hb : b.Allugens = some g) {ug : UGen} (hfit : UGenFits g lens ug)
    (hall : ∀ ug ∈ g, UGenFits g lens ug) :
    ∃ rates : List ℤ, rates.map some = outputRates b ug ∧
      Carries StrFile.mid (concat (outputSpec b ug)) (times (readInt 1) ug.numOutputs) rates := by
  unfold outputSpec outputRates UGen.numOutputs
  split
  · -- a rate for every channel: its source's
    have hchan : ∀ p ∈ ug.channels, ∃ rate : ℤ,
        some rate = (b.ugen? p.source).map (·.calcrate) ∧
        Carries StrFile.mid (index (b.ugen? p.source) >>= fun source => int2str source.calcrate 1)
          (readInt 1) rate := by
      intro p hp
      have hlt := hfit.sources p hp
      have hsrc : b.ugen? p.source = some g[p.source] := by
        unfold SYNTHDef.ugen?
        rw [hb]
        exact List.getElem?_eq_getElem hlt
      refine ⟨g[p.source].calcrate, by rw [hsrc]; rfl, ?_⟩
      rw [hsrc]
      exact readInt_carries one_pos (hall _ (List.getElem_mem hlt)).calcrate
    obtain ⟨rates, hrates, hcarries⟩ := Carries.list hchan
    exact ⟨rates, map_eq_of_forall₂ hrates, hcarries⟩
  · split
    · exact ⟨[], rfl, Carries.nil []⟩
    · exact ⟨[ug.calcrate], rfl,
        (readInt_carries one_pos hfit.calcrate).cons ((Carries.nil []).map _)⟩

/-- What is known of a built definition when it is written. -/
structure Built (b : SYNTHDef) (g : List UGen) (lens : ℕ) : Prop where
  allugens : b.Allugens = some g
  build : TopologicalBuild g b.st
  pool : ConstPool g b.st.constants
  fits : GraphFits g lens

theorem Built.constants_fit (h : Built b g lens) :
    FitsInt (tablelength b.st.constants) lens := by
  rw [← card_numericInputs h.build.constants_mem]
  exact h.fits.constants

/-- One UGen, behind those it reads from. -/
theorem readUGen_carries (h : Built b g lens) (hlens : 0 < lens) {Kt : List LuaNumber}
    (hKt : List.Forall₂ Float32Of (constantList b.st.constants) Kt) (Nt : LuaTable ℤ LString)
    (Ut : List UGenSpec) {u : UGenId} (hu : u < g.length)
    (hprev : ∀ v, Reads g u v → ∃ k < Ut.length, b.st.indugens[k]? = some v)
    (hle : Ut.length ≤ g.length) :
    ∃ spec, SameUGen b u spec ∧
      Carries StrFile.mid (ugenSpec b lens u) (readUGen lens Kt Nt Ut) spec := by
  have hug : g[u]? = some g[u] := List.getElem?_eq_getElem hu
  have hu' : b.ugen? u = some g[u] := by
    unfold SYNTHDef.ugen?
    rw [h.allugens]
    exact hug
  have hfit := h.fits.ugens g[u] (List.getElem_mem hu)
  have hinput : ∀ v ∈ g[u].inputs, ∃ spec, SameInput b v spec ∧
      Carries StrFile.mid (inputSpec b lens v) (readInput lens Kt Nt Ut (Ut.length + 1)) spec := by
    intro v hv
    cases v with
    | number x =>
      have hmem : x ∈ b.st.constants := (h.build.constants_mem x).mpr ⟨u, g[u], hug, hv⟩
      obtain ⟨i, hi⟩ := Option.isSome_iff_exists.mp (AList.lookup_isSome.mpr hmem)
      obtain ⟨h₁, hget⟩ := (constantList_spec h.pool).2 x i hi
      obtain ⟨y, hy, hxy⟩ := forall₂_getElem? hKt hget
      have hrange := (h.pool.range x i hi).2
      exact ⟨_, ⟨rfl, y, rfl, hxy⟩, readInput_number hlens hi h₁
        (h.constants_fit.of_le (by omega) (by omega)) Kt Nt Ut hy⟩
    | ref r =>
      obtain ⟨k, hk, hget⟩ := hprev _ ⟨g[u], hug, r, hv, rfl⟩
      have hpos := (h.build.ugens r.actualugen (k + 1)).mpr ⟨k, rfl, hget⟩
      obtain ⟨text, hcarries⟩ := readInput_ref hlens hpos
        (h.fits.count.of_le (by omega) (by omega)) (hfit.outputs r hv) Kt Nt Ut hk
      exact ⟨_, ⟨rfl, rfl, k, rfl, hget⟩, hcarries⟩
  obtain ⟨inputspec, hin, hinC⟩ := Carries.list hinput
  obtain ⟨rates, hrates, houtC⟩ := outputSpec_carries h.allugens hfit h.fits.ugens
  have hnum : FitsInt g[u].numOutputs lens := by
    unfold UGen.numOutputs
    split
    · exact hfit.channels
    · split
      · exact fitsInt_zero lens
      · exact fitsInt_one hlens
  refine ⟨⟨g[u].name, g[u].calcrate, g[u].inputs.length, g[u].numOutputs, g[u].specialIndex,
    inputspec, rates⟩, ⟨g[u], hu', rfl, rfl, rfl, rfl, rfl, hin, hrates⟩, ?_⟩
  unfold ugenSpec
  rw [hu']
  exact (readpstring_carries hfit.name).cons <|
    (readInt_carries one_pos hfit.calcrate).cons <|
    (readInt_carries hlens hfit.inputs).cons <|
    (readInt_carries hlens hnum).cons <|
    (readInt_carries two_pos hfit.specialIndex).cons <|
    hinC.cons <| houtC.cons (Carries.nil _)

/-- The loop over the UGens: `done` has been read into `Ut`. -/
theorem readUGens_carries (h : Built b g lens) (hlens : 0 < lens) {Kt : List LuaNumber}
    (hKt : List.Forall₂ Float32Of (constantList b.st.constants) Kt) (Nt : LuaTable ℤ LString) :
    ∀ (todo done : List UGenId) (Ut : List UGenSpec), b.st.indugens = done ++ todo →
      List.Forall₂ (SameUGen b) done Ut →
      ∃ Ut', List.Forall₂ (SameUGen b) (done ++ todo) Ut' ∧
        Carries StrFile.mid (concat (todo.map (ugenSpec b lens)))
          (readUGens lens Kt Nt todo.length Ut) Ut' := by
  intro todo
  induction todo with
  | nil =>
    intro done Ut _ hsame
    exact ⟨Ut, by rwa [List.append_nil], Carries.nil Ut⟩
  | cons u todo ih =>
    intro done Ut hsplit hsame
    have hlen : done.length = Ut.length := hsame.length_eq
    have hu : u ∈ b.st.indugens := by rw [hsplit]; simp
    have hult : u < g.length := List.mem_range.mp (h.build.perm.mem_iff.mp hu)
    have htotal : b.st.indugens.length = g.length := by
      rw [h.build.perm.length_eq, List.length_range]
    have hprev : ∀ v, Reads g u v → ∃ k < Ut.length, b.st.indugens[k]? = some v := by
      intro v hv
      -- the order is topological: what `u` reads from is among `done`
      obtain ⟨k, hk⟩ := List.mem_iff_getElem?.mp (h.build.topo done u todo hsplit v hv)
      have hlt := (List.getElem?_eq_some_iff.mp hk).1
      refine ⟨k, by omega, ?_⟩
      rw [hsplit, List.getElem?_append_left hlt]
      exact hk
    obtain ⟨spec, hspec, hcarries⟩ := readUGen_carries h hlens hKt Nt Ut hult hprev
      (by rw [hsplit, List.length_append] at htotal; omega)
    obtain ⟨Ut', hsame', hrest⟩ := ih (done ++ [u]) (Ut ++ [spec])
      (by rw [hsplit, List.append_assoc]; rfl)
      (List.rel_append hsame (List.Forall₂.cons hspec List.Forall₂.nil))
    refine ⟨Ut', by simpa using hsame', ?_⟩
    exact hcarries.cons hrest

end

/-! ## Parameters -/

/-- The pair a parameter name is read back as. -/
def namePair (p : ParamName) : ℤ × LString := ((p.index.getD 0 : ℕ), p.name)

/-- The names, in the order they are written. -/
theorem paramSpec_carries {names : List ParamName} {n lens : ℕ} (hwf : ParamsWF names n)
    (hlens : 0 < lens) (hn : FitsInt n lens) (hnames : ∀ p ∈ names, p.name.length ≤ 30) :
    Carries StrFile.mid (concat (names.map (paramSpec lens)))
      (times (readParamName lens) names.length) (names.map namePair) := by
  obtain ⟨idx, hmap, -, hrange⟩ := hwf
  have hone : ∀ p ∈ names, ∃ pair, id pair = namePair p ∧
      Carries StrFile.mid (paramSpec lens p) (readParamName lens) pair := by
    intro p hp
    have hmem : p.index ∈ idx.map some := hmap ▸ List.mem_map.mpr ⟨p, hp, rfl⟩
    obtain ⟨i, hi, hip⟩ := List.mem_map.mp hmem
    have hi' := hrange i hi
    have hspec : paramSpec lens p = concat [pstring p.name, int2str (i - 1) lens] := by
      unfold paramSpec
      rw [← hip]
      rfl
    have hpair : namePair p = ((i : ℤ) - 1 + 1, p.name) := by
      unfold namePair
      rw [← hip, sub_add_cancel]
      rfl
    refine ⟨namePair p, rfl, ?_⟩
    rw [hspec, hpair]
    exact (readpstring_carries (hnames p hp)).cons
      ((readInt_carries hlens (hn.of_le (by omega) (by omega))).cons (Carries.nil _))
  obtain ⟨pairs, hpairs, hcarries⟩ := Carries.list hone
  rw [← map_eq_of_forall₂ hpairs, List.map_id]
  exact hcarries

/-- The table the reader builds is the name-to-index map, read from the other
side. -/
theorem lookup_namePairs {names : List ParamName} {n : ℕ} (hwf : ParamsWF names n) (i : ℤ)
    (name : LString) :
    (ofPairs (names.map namePair)).lookup i = some name ↔
      ∃ k : ℕ, i = k ∧ ⟨name, some k⟩ ∈ names := by
  obtain ⟨idx, hmap, hpair, -⟩ := hwf
  have hkeys : (names.map namePair).map Prod.fst = idx.map (Nat.cast : ℕ → ℤ) := by
    have h : (names.map (·.index)).map (fun o => ((o.getD 0 : ℕ) : ℤ))
        = (idx.map some).map fun o => ((o.getD 0 : ℕ) : ℤ) := by rw [hmap]
    rw [List.map_map, List.map_map] at h
    rw [List.map_map]
    exact h
  have hnd : ((names.map namePair).map Prod.fst).Nodup := by
    rw [hkeys]
    exact List.Nodup.map Nat.cast_injective (hpair.imp fun h => Nat.ne_of_lt h)
  rw [lookup_ofPairs hnd, List.mem_map]
  constructor
  · rintro ⟨p, hp, heq⟩
    have hmem : p.index ∈ idx.map some := hmap ▸ List.mem_map.mpr ⟨p, hp, rfl⟩
    obtain ⟨k, -, hk⟩ := List.mem_map.mp hmem
    obtain ⟨pname, pindex⟩ := p
    cases hk
    cases heq
    exact ⟨k, rfl, hp⟩
  · rintro ⟨k, rfl, hp⟩
    exact ⟨_, hp, rfl⟩

/-! ## The whole file -/

/-- The block size is read back as set. -/
def SameReblock : Option Reblock → Resampling → Prop
  | none, rs => rs.block_size = 0 ∧ rs.block_size_index = 1
  | some (.controlIndex i), rs => rs.block_size = -1 ∧ rs.block_size_index = i + 1
  | some (.blockSize n), rs => rs.block_size = n ∧ rs.block_size_index = 1

/-- The factor is read back exactly, not up to the float codec. -/
def SameResample : Option Resample → Resampling → Prop
  | none, rs => rs.factor = .finite 1 ∧ rs.factor_index = 1
  | some (.controlIndex i), rs => rs.factor = .finite (-1) ∧ rs.factor_index = i + 1
  | some (.factor x), rs => rs.factor = x ∧ rs.factor_index = 1

/-- The settings `Reblock` can leave. -/
def ReblockFits : Option Reblock → Prop
  | none => True
  | some (.controlIndex i) => FitsInt i 4
  | some (.blockSize n) => FitsInt n 4

/-- The settings `Resample` can leave: `math.floor` of the factor has to be a
power of two or zero. -/
def ResampleFits : Option Resample → Prop
  | none => True
  | some (.controlIndex i) => FitsInt i 4
  | some (.factor x) => x = .finite 0 ∨ ∃ k ≤ 128, x = .finite (2 ^ k)

/-- A float the codec keeps. -/
theorem readFloat_exact {x : LuaNumber} (h : Float32Of x x) :
    Carries StrFile.mid (float2str x) readFloat x := by
  obtain ⟨s, hs, hx⟩ := h
  refine ⟨s ++ [], by rw [List.append_nil]; exact hs, ?_⟩
  have hread := read_reads s
  rw [float2str_length hs] at hread
  exact hread.bind (Format.Reads.lift hx)

/-- The trailer of version 3. -/
theorem trailer_carries {reblock : Option Reblock} {resample : Option Resample}
    (hre : ReblockFits reblock) (hrs : ResampleFits resample) :
    ∃ rs, SameReblock reblock rs ∧ SameResample resample rs ∧
      Carries StrFile.mid (concat (reblockSpec reblock ++ resampleSpec resample))
        readResampling rs := by
  obtain ⟨n, i, hsame, hn, hi, hspec⟩ : ∃ n i : ℤ,
      (∀ rs : Resampling, rs.block_size = n → rs.block_size_index = i + 1 →
        SameReblock reblock rs) ∧
      FitsInt n 4 ∧ FitsInt i 4 ∧ reblockSpec reblock = [int2str n 4, int2str i 4] := by
    match reblock, hre with
    | none, _ => exact ⟨0, 0, fun _ h₁ h₂ => ⟨h₁, h₂⟩, fitsInt_zero 4, fitsInt_zero 4, rfl⟩
    | some (.controlIndex i), hi =>
      exact ⟨-1, i, fun _ h₁ h₂ => ⟨h₁, h₂⟩, fitsInt_neg_one 4, hi, rfl⟩
    | some (.blockSize n), hn =>
      exact ⟨n, 0, fun _ h₁ h₂ => ⟨h₁, h₂⟩, hn, fitsInt_zero 4, rfl⟩
  obtain ⟨x, j, hsame', hx, hj, hspec'⟩ : ∃ (x : LuaNumber) (j : ℤ),
      (∀ rs : Resampling, rs.factor = x → rs.factor_index = j + 1 → SameResample resample rs) ∧
      Float32Of x x ∧ FitsInt j 4 ∧ resampleSpec resample = [float2str x, int2str j 4] := by
    match resample, hrs with
    | none, _ =>
      have hone : Float32Of (.finite 1) (.finite 1) := by
        simpa using float32Of_two_pow (Nat.zero_le 128)
      exact ⟨.finite 1, 0, fun _ h₁ h₂ => ⟨h₁, h₂⟩, hone, fitsInt_zero 4, rfl⟩
    | some (.controlIndex i), hi =>
      have hneg : Float32Of (.finite (-1)) (.finite (-1)) :=
        ⟨[0xBF, 0x80, 0, 0], by decide +kernel, by decide +kernel⟩
      exact ⟨.finite (-1), i, fun _ h₁ h₂ => ⟨h₁, h₂⟩, hneg, hi, rfl⟩
    | some (.factor x), hx =>
      have hexact : Float32Of x x := by
        rcases hx with rfl | ⟨k, hk, rfl⟩
        · exact ⟨[0, 0, 0, 0], rfl, rfl⟩
        · exact float32Of_two_pow hk
      exact ⟨x, 0, fun _ h₁ h₂ => ⟨h₁, h₂⟩, hexact, fitsInt_zero 4, rfl⟩
  refine ⟨⟨n, i + 1, x, j + 1⟩, hsame _ rfl rfl, hsame' _ rfl rfl, ?_⟩
  rw [hspec, hspec']
  exact (readInt_carries four_pos hn).cons <| (readInt_carries four_pos hi).cons <|
    (readFloat_exact hx).cons <| (readInt_carries four_pos hj).cons (Carries.nil _)

/-- Names, counts, indices and settings fit their fields. -/
structure SYNTHDef.Fits (d : SYNTHDef) (lens : ℕ) : Prop where
  name : d.name.length ≤ 30
  paramCount : FitsInt d.parameters.length lens
  nameCount : FitsInt d.paramnames.length lens
  paramnames : ∀ p ∈ d.paramnames, p.name.length ≤ 30
  graph : ∀ g, d.Allugens = some g → GraphFits g lens
  reblock : ReblockFits d.reblock
  resample : ResampleFits d.resample

/-- Every number that is written has a binary32 form. -/
structure Encodable (b : SYNTHDef) : Prop where
  constants : ∀ x ∈ constantList b.st.constants, ∃ s, float2str x = .ok s
  parameters : ∀ x ∈ b.parameters, ∃ s, float2str x = .ok s

/-- `r` says of the built SynthDef `b` all that the format holds. -/
structure Decoded (b : SYNTHDef) (v : ℕ) (r : SynthRead) : Prop where
  version : r.version = v
  name : r.name = b.name
  constants_length : r.constants.length = tablelength b.st.constants
  constants : ∀ x i, b.st.constants.lookup x = some i →
    ∃ y, at1 r.constants i = some y ∧ Float32Of x y
  parameters : List.Forall₂ Float32Of b.parameters r.parameters
  paramnames : ∀ i name, r.paramnames.lookup i = some name ↔
    ∃ k : ℕ, i = k ∧ ⟨name, some k⟩ ∈ b.paramnames
  ugens : List.Forall₂ (SameUGen b) b.st.indugens r.ugens
  variants : r.variants = []
  resampling : if v = 3 then
      ∃ rs, r.resampling = some rs ∧ SameReblock b.reblock rs ∧ SameResample b.resample rs
    else r.resampling = none

section

variable {b : SYNTHDef} {g : List UGen} {lens version : ℕ}

/-- The trailer, in the versions that have it. -/
theorem optionalTrailer_carries (hre : ReblockFits b.reblock) (hrs : ResampleFits b.resample)
    (hversion : version ≤ 3) :
    ∃ rs, (if version = 3 then ∃ rs', rs = some rs' ∧ SameReblock b.reblock rs' ∧
        SameResample b.resample rs' else rs = none) ∧
      Carries StrFile.mid
        (concat (if 3 ≤ version then reblockSpec b.reblock ++ resampleSpec b.resample else []))
        (onlyIf ((version : ℤ) = 3) readResampling) rs := by
  unfold onlyIf
  by_cases h3 : version = 3
  · subst h3
    obtain ⟨rs, hre', hrs', hcarries⟩ := trailer_carries hre hrs
    exact ⟨some rs, ⟨rs, rfl, hre', hrs'⟩, hcarries.map _⟩
  · rw [if_neg (show ¬ 3 ≤ version by omega), if_neg (show ¬ (version : ℤ) = 3 by omega)]
    exact ⟨none, by rw [if_neg h3], Carries.nil none⟩

/-- Everything behind the size field. -/
theorem readBody_carries (h : Built b g lens) (hlens : 0 < lens) (hfits : b.Fits lens)
    (hwf : ParamsWF b.paramnames b.parameters.length) (henc : Encodable b)
    (hversion : version ≤ 3) (size : Option ℤ) :
    ∃ r, Decoded b version r ∧
      Carries StrFile.mid (concat (toutBody b version lens)) (readBody version lens size) r := by
  obtain ⟨hKlen, hKget⟩ := constantList_spec h.pool
  have hfloats : ∀ xs : List LuaNumber, (∀ x ∈ xs, ∃ s, float2str x = .ok s) →
      ∀ x ∈ xs, ∃ y, Float32Of x y ∧ Carries StrFile.mid (float2str x) readFloat y := by
    intro xs hxs x hx
    obtain ⟨s, hs⟩ := hxs x hx
    exact readFloat_carries hs
  obtain ⟨Kt, hKt, hKtC⟩ := Carries.list (hfloats _ henc.constants)
  obtain ⟨Pt, hPt, hPtC⟩ := Carries.list (hfloats _ henc.parameters)
  have hnamesC := paramSpec_carries hwf hlens hfits.paramCount hfits.paramnames
  obtain ⟨Ut, hUt, hUtC⟩ := readUGens_carries h hlens hKt
    (ofPairs (b.paramnames.map namePair)) b.st.indugens [] [] rfl List.Forall₂.nil
  obtain ⟨rs, hrs, htrailC⟩ := optionalTrailer_carries hfits.reblock hfits.resample hversion
  have hK : FitsInt (constantList b.st.constants).length lens := hKlen ▸ h.constants_fit
  have hU : FitsInt b.st.indugens.length lens := by
    rw [h.build.perm.length_eq, List.length_range]
    exact h.fits.count
  refine ⟨⟨version, size, b.name, Kt, Pt, ofPairs (b.paramnames.map namePair), Ut, [], rs⟩,
    ⟨rfl, rfl, hKt.length_eq.symm.trans hKlen, ?_, hPt, lookup_namePairs hwf, hUt, rfl, hrs⟩, ?_⟩
  · intro x i hx
    obtain ⟨h₁, hget⟩ := hKget x i hx
    obtain ⟨y, hy, hxy⟩ := forall₂_getElem? hKt hget
    refine ⟨y, ?_, hxy⟩
    unfold at1
    rw [if_pos (by exact_mod_cast h₁), ← hy]
    congr 1
    omega
  · exact (readpstring_carries hfits.name).cons <|
      (readInt_carries hlens hK).cons <| hKtC.cons <|
      (readInt_carries hlens hfits.paramCount).cons <| hPtC.cons <|
      (readInt_carries hlens hfits.nameCount).cons <| hnamesC.cons <|
      (readInt_carries hlens hU).cons <| hUtC.cons <|
      (readInt_carries two_pos (fitsInt_zero 2)).cons <|
      Carries.skip (Format.Reads.pure []) (htrailC.map _)

/-- The ten bytes in front of the size field. -/
theorem readHead_reads (h₁ : 1 ≤ version) (h₃ : version ≤ 3) :
    ∃ bs, concat (toutHead version) = .ok bs ∧ bs.length = startPos ∧
      Format.Reads StrFile.mid readHead bs version := by
  have hv : FitsInt version 4 := by
    unfold FitsInt
    norm_num
    omega
  have hmagic : Carries StrFile.mid (.ok (ascii "SCgf")) (read 4) (ascii "SCgf") :=
    ⟨ascii "SCgf", rfl, read_reads (ascii "SCgf")⟩
  have hhead : Carries StrFile.mid (concat (toutHead version)) readHead version :=
    hmagic.cons <| Carries.skip (Format.Reads.lift (luaAssert_true rfl)) <|
    (readInt_carries four_pos hv).cons <|
    Carries.skip (Format.Reads.lift (luaAssert_true (by omega))) <|
    (readInt_carries two_pos (fitsInt_one two_pos)).cons <|
    Carries.skip (Format.Reads.lift (luaAssert_true rfl)) (Carries.nil _)
  obtain ⟨bs, hbs, hreads⟩ := hhead
  refine ⟨bs, hbs, ?_, hreads⟩
  obtain ⟨s₁, hs₁, hlen₁⟩ := int2str_ok four_pos hv
  obtain ⟨s₂, hs₂, hlen₂⟩ := int2str_ok two_pos (fitsInt_one two_pos)
  have hcat : concat (toutHead version) = .ok (ascii "SCgf" ++ (s₁ ++ (s₂ ++ []))) := by
    simp [toutHead, concat, hs₁, hs₂, pure, Except.pure]
  rw [hbs, Except.ok.injEq] at hcat
  rw [hcat]
  simp [hlen₁, hlen₂, startPos, ascii]

theorem seek_reads (pre : LString) : ReadsAt StrFile.mid pre seek [] ((pre.length : ℤ) + 1) := by
  intro post
  rw [List.append_nil]
  rfl

/-- Head, size field and body one after the other; the size is that of what
follows the head. -/
theorem readSCSynthString_of {version lenvint : ℤ} {H S B : LString} {size : Option ℤ}
    {r : SynthRead} (hlen : (if 1 < version then 4 else 2) = lenvint)
    (hH : Format.Reads StrFile.mid readHead H version)
    (hS : Format.Reads StrFile.mid (onlyIf (version = 3) (readInt lenvint)) S size)
    (hB : Format.Reads StrFile.mid (readBody version lenvint size) B r)
    (hsize : version = 3 → size = some ((S.length : ℤ) + B.length)) :
    readSCSynthString (H ++ (S ++ B)) = .ok r := by
  subst hlen
  have hassert : version = 3 →
      size = some ((((H ++ [] ++ S ++ B).length : ℤ) + 1) - ((H.length : ℤ) + 1)) := by
    intro h3
    rw [hsize h3]
    simp only [List.length_append, List.length_nil]
    push_cast
    congr 1
    ring
  have hstream : ReadsAt StrFile.mid [] readSCSynthStream
      (H ++ ([] ++ (S ++ (B ++ ([] ++ ([] ++ [])))))) r :=
    (hH []).bind <| (seek_reads H).bind <| (hS _).bind <| (hB _).bind <| (seek_reads _).bind <|
    (Format.Reads.lift (luaAssert_true hassert) _).bind (Format.Reads.pure r _)
  have hrun := hstream []
  simp only [List.nil_append, List.append_nil] at hrun
  have hmid : StrFile.mid [] (H ++ (S ++ B)) = ⟨H ++ (S ++ B), 1⟩ := by
    simp [StrFile.mid]
  unfold readSCSynthString
  rw [← hmid, hrun]
  rfl

/-- The width of counts and indices. -/
def lensFor (version : ℕ) : ℕ := if 1 < version then 4 else 2

theorem lensOf_eq (h₁ : 1 ≤ version) : lensOf version = .ok (lensFor version) := by
  unfold lensOf lensFor
  by_cases h : version = 1
  · rw [if_pos h, if_neg (by omega)]
  · rw [if_neg h, if_pos (by omega), if_pos (by omega)]

/-- The bytes of a built definition are read back as what it is. -/
theorem encodeDef_reads (h : Built b g (lensFor version)) (hfits : b.Fits (lensFor version))
    (hwf : ParamsWF b.paramnames b.parameters.length) (henc : Encodable b)
    (h₁ : 1 ≤ version) (h₃ : version ≤ 3)
    (hshort : version = 3 → ∀ s, concat (toutHead 3 ++ int2str 0 4 :: toutBody b 3 4) = .ok s →
      s.length < 2 ^ 31) :
    ∃ str r, encodeDef b version = .ok str ∧ readSCSynthString str = .ok r ∧
      Decoded b version r := by
  have hpos : 0 < lensFor version := by unfold lensFor; split <;> norm_num
  have hlenvint : ((if 1 < (version : ℤ) then 4 else 2 : ℤ)) = (lensFor version : ℤ) := by
    unfold lensFor
    by_cases h : 1 < version
    · rw [if_pos h, if_pos (by exact_mod_cast h)]; rfl
    · rw [if_neg h, if_neg (by exact_mod_cast h)]; rfl
  obtain ⟨H, hH, hHlen, hHreads⟩ := readHead_reads h₁ h₃
  by_cases h3 : version = 3
  · subst h3
    obtain ⟨_, -, B, hB, -⟩ := readBody_carries h hpos hfits hwf henc le_rfl none
    obtain ⟨Z, hZ, hZlen⟩ := int2str_ok four_pos (fitsInt_zero 4)
    have htail : ∀ w z, w = .ok z →
        concat (toutHead 3 ++ w :: toutBody b 3 4) = .ok (H ++ (z ++ B)) := by
      rintro w z rfl
      refine concat_append hH ?_
      rw [concat, show concat (toutBody b 3 4) = .ok B from hB]
      rfl
    -- the size that is patched in, and its bytes
    have hsize : (((H ++ (Z ++ B)).length : ℕ) : ℤ) - startPos = 4 + B.length := by
      rw [List.length_append, List.length_append, hHlen, hZlen]
      push_cast
      ring
    have hfit : FitsInt (4 + (B.length : ℤ)) 4 := by
      have hlt := hshort rfl _ (htail _ _ hZ)
      rw [List.length_append, List.length_append, hHlen, hZlen] at hlt
      unfold FitsInt
      norm_num [startPos] at hlt ⊢
      omega
    obtain ⟨S, hS, hSlen⟩ := int2str_ok four_pos hfit
    obtain ⟨S', hS', hSreads⟩ := readInt_carries four_pos hfit
    obtain rfl : S = S' := Except.ok.inj (hS.symm.trans hS')
    obtain ⟨r, hr, B', hB', hBreads⟩ :=
      readBody_carries h hpos hfits hwf henc le_rfl (some (4 + B.length))
    obtain rfl : B = B' := Except.ok.inj (hB.symm.trans hB')
    refine ⟨H ++ (S ++ B), r, ?_, ?_, hr⟩
    · unfold encodeDef
      rw [lensOf_eq h₁, ok_bind, if_pos (show 2 < 3 by norm_num), show lensFor 3 = 4 from rfl]
      dsimp only
      rw [htail _ _ hZ, ok_bind, hsize]
      exact htail _ _ hS
    · have hfield : Format.Reads StrFile.mid
          (onlyIf (((3 : ℕ) : ℤ) = 3) (readInt (lensFor 3 : ℕ))) S (some (4 + B.length)) := by
        have hmap := hSreads.bind (f := fun a => pure (some a))
          (Format.Reads.pure (some (4 + (B.length : ℤ))))
        rw [List.append_nil] at hmap
        exact hmap
      exact readSCSynthString_of hlenvint hHreads hfield hBreads fun _ => by rw [hSlen]; rfl
  · obtain ⟨r, hr, B, hB, hBreads⟩ := readBody_carries h hpos hfits hwf henc h₃ none
    refine ⟨H ++ B, r, ?_, ?_, hr⟩
    · unfold encodeDef
      rw [lensOf_eq h₁, ok_bind, if_neg (show ¬ 2 < version by omega)]
      exact concat_append hH hB
    · have hno : ¬ (version : ℤ) = 3 := by omega
      have hfield : Format.Reads StrFile.mid
          (onlyIf ((version : ℤ) = 3) (readInt (lensFor version : ℕ))) [] none := by
        unfold onlyIf
        rw [if_neg hno]
        exact Format.Reads.pure none
      have hread := readSCSynthString_of hlenvint hHreads hfield hBreads fun h => absurd h hno
      rw [List.nil_append] at hread
      exact hread

end

/-! ## `makeDefStr` -/

/-- As the graph function leaves it, or built since. -/
def SYNTHDef.Ready (d : SYNTHDef) : Prop :=
  d.Fresh ∨ ∃ d₀ : SYNTHDef, d₀.Fresh ∧ d₀.build = .ok d

/-- Every parameter and every numeric input has a binary32 form. -/
structure SYNTHDef.Encodes (d : SYNTHDef) : Prop where
  parameters : ∀ x ∈ d.parameters, ∃ s, float2str x = .ok s
  inputs : ∀ g, d.Allugens = some g → ∀ u x, ReadsNumber g u x → ∃ s, float2str x = .ok s

/-- The version 3 file stays below the 2 GiB its size field can state. -/
def SYNTHDef.Short (d : SYNTHDef) : Prop :=
  ∀ b s, d.ensureBuilt = .ok b →
    concat (toutHead 3 ++ int2str 0 4 :: toutBody b 3 4) = .ok s → s.length < 2 ^ 31

section

variable {d b : SYNTHDef} {g : List UGen}

/-- `makeDefStr` builds what is not built yet, and changes only the fields a
build writes. -/
theorem ensureBuilt_spec (hready : d.Ready) (hg : d.AcyclicGraph) (hd : d.Allugens = some g) :
    ∃ b, d.ensureBuilt = .ok b ∧
      b = { d with outputugens := b.outputugens, st := b.st, isBuild := true } ∧
      TopologicalBuild g b.st ∧ ConstPool g b.st.constants := by
  unfold SYNTHDef.ensureBuilt
  rcases hready with hfresh | ⟨d₀, hfresh, hbuild⟩
  · obtain ⟨st, hst, htopo, hpool⟩ := build_spec hfresh hg hd
    rw [hfresh.isBuild, hst]
    exact ⟨_, rfl, rfl, htopo, hpool⟩
  · obtain ⟨hall, his⟩ := build_keeps hbuild
    have hg₀ : d₀.AcyclicGraph := fun g' hg' => hg g' (hall.trans hg')
    obtain ⟨st, hst, htopo, hpool⟩ := build_spec hfresh hg₀ (hall.symm.trans hd)
    have hd' : d = { d₀ with outputugens := findTerminals g, st := st, isBuild := true } :=
      Except.ok.inj (hbuild.symm.trans hst)
    rw [his, if_pos rfl]
    refine ⟨d, rfl, ?_, ?_, ?_⟩
    · cases d
      cases his
      rfl
    · rw [hd']
      exact htopo
    · rw [hd']
      exact hpool

/-- A written constant is a numeric input of some UGen. -/
theorem mem_constantList {t : LuaTable LuaNumber ℕ} (h : ConstPool g t) {x : LuaNumber}
    (hx : x ∈ constantList t) : ∃ u, ReadsNumber g u x := by
  obtain ⟨hlen, hget⟩ := constantList_spec h
  obtain ⟨j, hj⟩ := List.mem_iff_getElem?.mp hx
  have hlt := (List.getElem?_eq_some_iff.mp hj).1
  obtain ⟨y, hy⟩ := h.onto (j + 1) (by omega) (by omega)
  have hyj := (hget y (j + 1) hy).2
  rw [Nat.add_sub_cancel, hj, Option.some.injEq] at hyj
  exact h.keys x (AList.lookup_isSome.mp (by rw [hyj, hy]; rfl))

/-- What has been written could be written. -/
theorem encodable_of_encodeDef {version : ℕ} {str : LString}
    (h : encodeDef b version = .ok str) : Encodable b := by
  -- every piece of the body has succeeded, in either form of the file
  have hbody : ∃ lens, ∀ w ∈ toutBody b version lens, ∃ t, w = .ok t := by
    obtain ⟨lens, -, hrest⟩ := bind_ok.mp h
    refine ⟨lens, ?_⟩
    split at hrest
    · obtain ⟨sss, hsss, -⟩ := bind_ok.mp hrest
      exact fun w hw => concat_ok hsss w (List.mem_append_right _ (List.mem_cons_of_mem _ hw))
    · exact fun w hw => concat_ok hrest w (List.mem_append_right _ hw)
  obtain ⟨lens, hok⟩ := hbody
  constructor
  · intro x hx
    obtain ⟨t, ht⟩ := hok (concat ((constantList b.st.constants).map float2str))
      (by simp [toutBody])
    exact concat_ok ht _ (List.mem_map.mpr ⟨x, hx, rfl⟩)
  · intro x hx
    obtain ⟨t, ht⟩ := hok (concat (b.parameters.map float2str)) (by simp [toutBody])
    exact concat_ok ht _ (List.mem_map.mpr ⟨x, hx, rfl⟩)

end

/-- `Short`, computed. -/
def SYNTHDef.shortCheck (d : SYNTHDef) : Bool :=
  match d.ensureBuilt with
  | .ok b =>
    match concat (toutHead 3 ++ int2str 0 4 :: toutBody b 3 4) with
    | .ok s => decide (s.length < 2 ^ 31)
    | .error _ => true
  | .error _ => true

theorem SYNTHDef.short_of_check {d : SYNTHDef} (h : d.shortCheck = true) : d.Short := by
  intro b s hb hs
  unfold SYNTHDef.shortCheck at h
  rw [hb] at h
  dsimp only at h
  rw [hs] at h
  exact of_decide_eq_true h

/-- The sine SynthDef fits its fields. -/
theorem sineDef_fits : sineDef.Fits 4 where
  name := by decide
  paramCount := by decide
  nameCount := by decide
  paramnames := by decide
  graph := by
    intro g hg
    cases hg
    refine ⟨by decide, by decide +kernel, ?_⟩
    intro ug hug
    simp only [sineUGens, List.mem_cons, List.not_mem_nil, or_false] at hug
    rcases hug with rfl | rfl | rfl | rfl <;>
      refine ⟨by decide, by decide, by decide, by decide, by decide, ?_, by decide⟩ <;>
      intro r hr <;>
      simp only [List.mem_cons, Input.ref.injEq, List.not_mem_nil, or_false, reduceCtorEq] at hr
    · subst hr
      decide
    · subst hr
      decide
    · rcases hr with rfl | rfl | rfl <;> decide
  reblock := trivial
  resample := trivial

/-- `Encodes`, from a check on a list of numbers. -/
theorem encodes_of_all {xs : List LuaNumber} (h : xs.all (fun x => (float2str x).isOk) = true) :
    ∀ x ∈ xs, ∃ s, float2str x = .ok s := by
  intro x hx
  have hok := List.all_eq_true.mp h x hx
  cases hs : float2str x with
  | ok s => exact ⟨s, rfl⟩
  | error e => rw [hs] at hok; exact absurd hok (by simp [Except.isOk, Except.toBool])

theorem sineDef_encodes : sineDef.Encodes where
  parameters := encodes_of_all (by decide +kernel)
  inputs := by
    intro g hg u x hux
    cases hg
    exact @encodes_of_all (numericInputs sineUGens) (by decide +kernel) x
      (mem_numericInputs.mpr ⟨u, hux⟩)

/-- How its parameters were declared. -/
def sineCalls : List ControlCall :=
  [.names [ascii "freq", ascii "out"], .kr [.number (.finite 440), .number (.finite 0)]]

theorem sineCalls_nonEmpty : NonEmptyArrays sineCalls := by
  intro values hvalues v hv
  simp only [sineCalls, List.mem_cons, reduceCtorEq, ControlCall.kr.injEq, List.not_mem_nil,
    or_false, false_or] at hvalues
  subst hvalues
  simp only [List.mem_cons, List.not_mem_nil, or_false] at hv
  rcases hv with rfl | rfl <;> simp [ParamValue.numbers]

end Lua2SC.SynthDef

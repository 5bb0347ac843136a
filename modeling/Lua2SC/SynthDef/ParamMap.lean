import Lua2SC.Lib.Layout
import Lua2SC.SynthDef.Controls

/-!
# `SynthDef`: which output of which control is which parameter

`SynthDef(name, parametersDef, graphfunc)` sorts the parameters into those
whose name begins with `t_` and the others, makes a `TrigControl` for the
first and a `Control` for the second, and hands every name its outputs, as
fields of the environment of the graph function (`paramControl`). The graph
function may declare more names with `Control.names(ns).kr(vs)`, which returns
all outputs of the new control, and makes UGens of other kinds in between.

Three loops lay the parameters out: `Control:init` numbers the names and
appends the defaults (`Controls.lean`), `initOutputs` numbers the outputs of
one control from 1, and `SynthDef` counts through the outputs of each group.
`Laid` says how the three agree: name after name, each as wide as its value,
with the output whose control's `specialIndex` plus its own index is the index
of the parameter. Every call keeps it (`kr_spec`), and `parameter_mapping`
reads the mapping off.

`pairs(parametersDef)` visits the parameters in any order, so they are a list
of pairs with distinct names. Values are numbers or arrays wrapped in `Ref`,
which `MultiNew` leaves as they are.
-/

namespace Lua2SC.SynthDef

open Lua2SC.Lua Lua2SC.Layout

/-! ## The code -/

/-- The SynthDef being built: its parameters, its UGens, the UGens among them
that `kr` made, and for every value given so far the outputs that stand for
it. -/
structure Building where
  params : Params
  Allugens : List UGen
  controls : List UGenId
  handed : List (List Proxy)

/-- `MultiOutUGen:initOutputs(size)`. -/
def initOutputs (self : UGenId) (size : ℕ) : List Proxy :=
  (List.range size).map fun i => ⟨self, i + 1⟩

/-- `numUnitaryOutputs` after the loop of `Control:init`. -/
def numUnitaryOutputs (values : List ParamValue) : ℕ :=
  values.foldl (fun n v => n + v.numbers.length) 0

/-- The outputs of a control, cut into those of each value. -/
def cut : List ParamValue → List Proxy → List (List Proxy)
  | [], _ => []
  | v :: values, channels =>
    channels.take v.numbers.length :: cut values (channels.drop v.numbers.length)

/-- `Control.names(names).kr(unpack(values))`, or with `TrigControl`, which is
another name for the UGen. -/
def namesKr (cls : LString) (names : List LString) (values : List ParamValue) (b : Building) :
    LuaM (List Proxy × Building) := do
  let self := b.Allugens.length
  let params ← Control.init values (Control.names names b.params)
  let channels := initOutputs self (numUnitaryOutputs values)
  let control : UGen :=
    { name := cls, calcrate := 1, specialIndex := b.params.parameters.length, isOutUGen := false
      inputs := [], channels := channels }
  .ok (channels,
    { params := params, Allugens := b.Allugens ++ [control], controls := b.controls ++ [self]
      handed := b.handed ++ cut values channels })

/-- A field of the environment of the graph function. -/
inductive ParamControl where
  | output (c : Option Proxy)
  | array (cs : List (Option Proxy))
deriving DecidableEq, Repr

/-- `k:sub(1,2)=="t_"`. -/
def isTrig (k : LString) : Bool := strSub k 1 2 = ascii "t_"

/-- The loop over `pairs(parametersDef)`: the parameters of the two groups. -/
def sortNames (parametersDef : List (LString × ParamValue)) :
    List (LString × ParamValue) × List (LString × ParamValue) :=
  parametersDef.foldl (fun groups kv =>
    if isTrig kv.1 = true then (groups.1 ++ [kv], groups.2) else (groups.1, groups.2 ++ [kv]))
    ([], [])

/-- A group of parameters, if it has any. -/
def declareGroup (cls : LString) (group : List (LString × ParamValue)) (b : Building) :
    LuaM (List Proxy × Building) :=
  if 0 < group.length then namesKr cls (group.map Prod.fst) (group.map Prod.snd) b
  else .ok ([], b)

/-- The loop that counts through the outputs of a group, from place `ind`. -/
def handOut (controls : List Proxy) :
    ℕ → List (LString × ParamValue) → LuaTable LString ParamControl →
      LuaTable LString ParamControl
  | _, [], paramControl => paramControl
  | ind, (name, .number _) :: group, paramControl =>
    handOut controls (ind + 1) group (paramControl.insert name (.output controls[ind - 1]?))
  | ind, (name, .array vs) :: group, paramControl =>
    let param := (List.range vs.length).map fun i2 => controls[ind + i2 - 1]?
    handOut controls (ind + vs.length) group (paramControl.insert name (.array param))

/-- What a graph function does, as far as it concerns the parameters. -/
inductive GraphCall where
  | kr (cls : LString) (names : List LString) (values : List ParamValue)
  | ugen (ug : UGen)

def GraphCall.run (b : Building) : GraphCall → LuaM Building
  | .kr cls names values => do
    let r ← namesKr cls names values b
    .ok r.2
  | .ugen ug => .ok { b with Allugens := b.Allugens ++ [ug] }

/-- `SynthDef(name, parametersDef, graphfunc)`: the environment of the graph
function, and the SynthDef after it. -/
def SynthDef (parametersDef : List (LString × ParamValue)) (graphfunc : List GraphCall) :
    LuaM (LuaTable LString ParamControl × Building) := do
  let (t_params, params) := sortNames parametersDef
  let (t_controls, b) ← declareGroup (ascii "TrigControl") t_params ⟨⟨[], []⟩, [], [], []⟩
  let (controls, b) ← declareGroup (ascii "Control") params b
  let paramControl := handOut controls 1 params (handOut t_controls 1 t_params ∅)
  let b ← graphfunc.foldlM GraphCall.run b
  .ok (paramControl, b)

/-! ## What is asked of the mapping -/

/-- The width of a parameter. -/
def width (kv : LString × ParamValue) : ℕ := kv.2.numbers.length

/-- The parameter that an output stands for: its control's `specialIndex` plus
its own index. -/
def Building.indexOf (b : Building) (p : Proxy) : Option ℤ :=
  (b.Allugens[p.source]?).map fun control => control.specialIndex + p.index

/-- An output of a control. -/
def Building.IsOutput (b : Building) (p : Proxy) : Prop :=
  p.source ∈ b.controls ∧ ∃ control, b.Allugens[p.source]? = some control ∧ p ∈ control.channels

/-- What a graph function is handed for a parameter. -/
def ParamControl.of (v : ParamValue) (outputs : List Proxy) : ParamControl :=
  match v with
  | .number _ => .output outputs[0]?
  | .array _ => .array (outputs.map some)

/-- The names and values that a graph function declares. -/
def GraphCall.declares : GraphCall → List (LString × ParamValue)
  | .kr _ names values => names.zip values
  | .ugen _ => []

/-- As many values as names. -/
def GraphCall.Balanced : GraphCall → Prop
  | .kr _ names values => names.length = values.length
  | .ugen _ => True

/-- There is a name. -/
def GraphCall.Named : GraphCall → Prop
  | .kr _ names _ => names ≠ []
  | .ugen _ => True

/-- All names and values, in the order they are declared. -/
def declared (parametersDef : List (LString × ParamValue)) (graphfunc : List GraphCall) :
    List (LString × ParamValue) :=
  parametersDef.filter (fun kv => isTrig kv.1) ++
    parametersDef.filter (fun kv => !isTrig kv.1) ++ graphfunc.flatMap GraphCall.declares

/-- The parameters `given` of a SynthDef have the indices from `index i` on:
the ranges are consecutive, together they are `1 … #parameters`, each has the
defaults given for it, and the outputs handed out for it are the outputs of
controls that stand for it, in order. -/
structure Mapping (given : List (LString × ParamValue)) (b : Building) (index : ℕ → ℕ) : Prop where
  first : index 0 = 1
  next : ∀ i kv, given[i]? = some kv → index (i + 1) = index i + width kv
  last : index given.length = b.params.parameters.length + 1
  names : ∀ i, b.params.paramnames[i]? = given[i]?.map fun kv => ParamName.mk kv.1 (some (index i))
  cover : ∀ k, 1 ≤ k → k ≤ b.params.parameters.length →
    ∃! i, i < given.length ∧ index i ≤ k ∧ k < index (i + 1)
  defaults : ∀ i kv, given[i]? = some kv →
    (b.params.parameters.drop (index i - 1)).take (width kv) = kv.2.numbers
  outputs : ∀ i kv, given[i]? = some kv → ∃ ps, b.handed[i]? = some ps ∧
    ps.map b.indexOf = (List.range' (index i) (width kv)).map (fun (k : ℕ) => some (k : ℤ)) ∧
      ∀ p, b.IsOutput p → ∀ k, b.indexOf p = some (k : ℤ) → index i ≤ k → k < index (i + 1) →
        p ∈ ps

/-! ## Names and defaults -/

/-- Indexed names, where `n` places are taken. -/
def laid : ℕ → List (LString × ParamValue) → List ParamName
  | _, [] => []
  | n, kv :: given => ⟨kv.1, some (n + 1)⟩ :: laid (n + width kv) given

theorem laid_append (n : ℕ) (given given' : List (LString × ParamValue)) :
    laid n (given ++ given') = laid n given ++ laid (n + total width given) given' := by
  induction given generalizing n with
  | nil => simp [laid]
  | cons kv given ih => simp [laid, ih, Nat.add_assoc]

theorem laid_indexed (n : ℕ) (given : List (LString × ParamValue)) :
    ∀ p ∈ laid n given, p.index.isNone = false := by
  induction given generalizing n with
  | nil => intro p hp; cases hp
  | cons kv given ih =>
    intro p hp
    rcases List.mem_cons.mp hp with rfl | hp
    · rfl
    · exact ih _ p hp

@[simp] theorem length_laid (n : ℕ) (given : List (LString × ParamValue)) :
    (laid n given).length = given.length := by
  induction given generalizing n with
  | nil => rfl
  | cons kv given ih => simp [laid, ih]

theorem getElem?_laid (n : ℕ) (given : List (LString × ParamValue)) (i : ℕ) :
    (laid n given)[i]? =
      given[i]?.map fun kv => ParamName.mk kv.1 (some (n + offset width given i + 1)) := by
  induction given generalizing n i with
  | nil => rfl
  | cons kv given ih =>
    cases i with
    | zero => simp [laid]
    | succ i => simp [laid, ih, Nat.add_assoc]

/-- The search of `Control:init` passes the indexed names. -/
theorem findIdx_laid (n : ℕ) (given : List (LString × ParamValue)) (rest : List LString) :
    (laid n given ++ rest.map unindexed).findIdx (fun p => p.index.isNone) = given.length := by
  have hlength : (laid n given).findIdx (fun p => p.index.isNone) = (laid n given).length :=
    List.findIdx_eq_length.mpr (laid_indexed n given)
  rw [List.findIdx_append, hlength, if_neg (Nat.lt_irrefl _)]
  cases rest with
  | nil => simp
  | cons m rest => simp [unindexed, List.findIdx_cons]

/-- The loop of `Control:init` lays the values out behind what is there. -/
theorem initStep_laid : ∀ (values : List ParamValue) (names : List LString)
    (done : List ParamName) (ps : List LuaNumber), names.length = values.length →
      values.foldlM Control.initStep (done.length, ⟨ps, done ++ names.map unindexed⟩) =
        .ok (done.length + values.length, ⟨ps ++ values.flatMap ParamValue.numbers,
          done ++ laid ps.length (names.zip values)⟩) := by
  intro values
  induction values with
  | nil =>
    intro names done ps hlen
    obtain rfl := List.length_eq_zero_iff.mp hlen
    simp [laid, pure, Except.pure]
  | cons v values ih =>
    intro names done ps hlen
    cases names with
    | nil => cases hlen
    | cons m names =>
      have hstep : Control.initStep (done.length, ⟨ps, done ++ (m :: names).map unindexed⟩) v =
          .ok (done.length + 1,
            ⟨ps ++ v.numbers, done ++ ⟨m, some (ps.length + 1)⟩ :: names.map unindexed⟩) := by
        simp [Control.initStep, unindexed]
      have hrest := ih names (done ++ [⟨m, some (ps.length + 1)⟩]) (ps ++ v.numbers)
        (Nat.succ.inj hlen)
      rw [List.length_append, List.length_singleton, List.append_assoc,
        List.singleton_append] at hrest
      rw [List.foldlM_cons, hstep, ok_bind, hrest]
      simp [laid, width, Nat.add_assoc, Nat.add_comm 1]

/-- `Control.names` and `Control:init` together. -/
theorem init_names {given : List (LString × ParamValue)} {s : Params}
    (hnames : s.paramnames = laid 0 given)
    (hparameters : s.parameters.length = total width given) {names : List LString}
    {values : List ParamValue} (hlen : names.length = values.length) (hne : names ≠ []) :
    Control.init values (Control.names names s) =
      .ok ⟨s.parameters ++ values.flatMap ParamValue.numbers,
        laid 0 (given ++ names.zip values)⟩ := by
  have hentered : (Control.names names s).paramnames = laid 0 given ++ names.map unindexed := by
    show s.paramnames ++ names.map unindexed = _
    rw [hnames]
  have hroom : given.length < (laid 0 given ++ names.map unindexed).length := by
    have hpos := List.length_pos_iff.mpr hne
    simpa using hpos
  have hloop := initStep_laid values names (laid 0 given) s.parameters hlen
  rw [length_laid, hparameters] at hloop
  obtain ⟨ps, pn⟩ := s
  unfold Control.init
  simp only [hentered, findIdx_laid]
  rw [luaAssert_true hroom, ok_bind]
  have hstate : Control.names names ⟨ps, pn⟩ = ⟨ps, laid 0 given ++ names.map unindexed⟩ := by
    rw [← hentered]; rfl
  rw [hstate, hloop, ok_bind, laid_append, Nat.zero_add]
  rfl

/-- Without a name, `Control:init` has none to index. -/
theorem init_unnamed {given : List (LString × ParamValue)} {s : Params}
    (hnames : s.paramnames = laid 0 given) :
    Control.init [] (Control.names [] s) = .error "Init Control without names" := by
  have hentered : (Control.names [] s).paramnames = laid 0 given ++ [].map unindexed := by
    show s.paramnames ++ [].map unindexed = _
    rw [hnames]
  unfold Control.init
  simp only [hentered, findIdx_laid]
  rw [luaAssert, if_neg (by simp)]
  rfl

/-! ## Outputs -/

@[simp] theorem length_initOutputs (self : UGenId) (size : ℕ) :
    (initOutputs self size).length = size := by
  simp [initOutputs]

/-- With as many names as values, the pairs have the values' widths. -/
theorem map_width_zip {names : List LString} {values : List ParamValue}
    (hlen : names.length = values.length) :
    (names.zip values).map width = values.map fun v => v.numbers.length := by
  have hsnd := List.map_snd_zip (le_of_eq hlen.symm)
  calc (names.zip values).map width
      = ((names.zip values).map Prod.snd).map fun v => v.numbers.length := by
        rw [List.map_map]; rfl
    _ = values.map fun v => v.numbers.length := by rw [hsnd]

/-- The counter of `Control:init` counts the numbers that are given. -/
theorem numUnitaryOutputs_eq {names : List LString} {values : List ParamValue}
    (hlen : names.length = values.length) :
    numUnitaryOutputs values = total width (names.zip values) := by
  have hfold : ∀ (values : List ParamValue) (n : ℕ),
      values.foldl (fun n v => n + v.numbers.length) n =
        n + (values.map fun v => v.numbers.length).sum := by
    intro values
    induction values with
    | nil => intro n; simp
    | cons v values ih => intro n; simp [ih, Nat.add_assoc]
  rw [numUnitaryOutputs, hfold, Nat.zero_add, total, map_width_zip hlen]

/-- Cutting loses no output. -/
theorem cut_flatten : ∀ (values : List ParamValue) (channels : List Proxy),
    channels.length = (values.map fun v => v.numbers.length).sum →
      (cut values channels).flatten = channels := by
  intro values
  induction values with
  | nil =>
    intro channels hlen
    rw [List.length_eq_zero_iff.mp hlen]
    rfl
  | cons v values ih =>
    intro channels hlen
    rw [List.map_cons, List.sum_cons] at hlen
    have hrest := ih (channels.drop v.numbers.length) (by rw [List.length_drop]; omega)
    rw [cut, List.flatten_cons, hrest, List.take_append_drop]

/-- Every value gets its outputs. -/
theorem length_cut : ∀ (values : List ParamValue) (channels : List Proxy),
    (cut values channels).length = values.length
  | [], _ => rfl
  | v :: values, channels =>
    congrArg (· + 1) (length_cut values (channels.drop v.numbers.length))

/-- Every value gets as many outputs as it has numbers. -/
theorem cut_lengths : ∀ (values : List ParamValue) (channels : List Proxy),
    channels.length = (values.map fun v => v.numbers.length).sum →
      (cut values channels).map List.length = values.map fun v => v.numbers.length := by
  intro values
  induction values with
  | nil => intro channels _; rfl
  | cons v values ih =>
    intro channels hlen
    rw [List.map_cons, List.sum_cons] at hlen
    have hrest := ih (channels.drop v.numbers.length) (by rw [List.length_drop]; omega)
    rw [cut, List.map_cons, List.map_cons, hrest, List.length_take]
    congr 1
    omega

/-- What holds of a SynthDef after any declarations. -/
structure Laid (given : List (LString × ParamValue)) (b : Building) : Prop where
  names : b.params.paramnames = laid 0 given
  parameters : b.params.parameters = given.flatMap fun kv => kv.2.numbers
  lengths : b.handed.map List.length = given.map width
  indexes : b.handed.flatten.map b.indexOf =
    (List.range (total width given)).map fun (k : ℕ) => some ((k : ℤ) + 1)
  isOutput : ∀ p, b.IsOutput p ↔ p ∈ b.handed.flatten
  made : ∀ u ∈ b.controls, u < b.Allugens.length

theorem Laid.length_parameters {given : List (LString × ParamValue)} {b : Building}
    (h : Laid given b) : b.params.parameters.length = total width given := by
  rw [h.parameters, length_flatMap]
  rfl

theorem Laid.nil : Laid [] ⟨⟨[], []⟩, [], [], []⟩ :=
  ⟨rfl, rfl, rfl, rfl, fun p => by simp [Building.IsOutput], fun u hu => by cases hu⟩

/-- UGens made later change no output. -/
theorem Laid.indexOf_append {given : List (LString × ParamValue)} {b b' : Building}
    (h : Laid given b) {ugens : List UGen} (hugens : b'.Allugens = b.Allugens ++ ugens) :
    b.handed.flatten.map b'.indexOf = b.handed.flatten.map b.indexOf := by
  refine List.map_congr_left fun p hp => ?_
  obtain ⟨hcontrol, -⟩ := (h.isOutput p).mpr hp
  unfold Building.indexOf
  rw [hugens, List.getElem?_append_left (h.made p.source hcontrol)]

/-- A UGen of another kind. -/
theorem Laid.ugen {given : List (LString × ParamValue)} {b : Building} (h : Laid given b)
    (ug : UGen) : Laid given { b with Allugens := b.Allugens ++ [ug] } := by
  refine ⟨h.names, h.parameters, h.lengths, ?_, ?_, ?_⟩
  · rw [← h.indexes]
    exact h.indexOf_append rfl
  · intro p
    rw [← h.isOutput p]
    refine and_congr_right fun hcontrol => ?_
    rw [List.getElem?_append_left (h.made p.source hcontrol)]
  · intro u hu
    rw [List.length_append]
    exact Nat.lt_add_right _ (h.made u hu)

/-- **A call of `kr` after `names`** lays the new names out behind the others. -/
theorem namesKr_spec {given : List (LString × ParamValue)} {b : Building} (h : Laid given b)
    (cls : LString) {names : List LString} {values : List ParamValue}
    (hlen : names.length = values.length) (hne : names ≠ []) :
    ∃ b', namesKr cls names values b = .ok
        (initOutputs b.Allugens.length (total width (names.zip values)), b') ∧
      Laid (given ++ names.zip values) b' ∧
      b'.handed = b.handed ++
        cut values (initOutputs b.Allugens.length (total width (names.zip values))) := by
  have hinit := init_names h.names h.length_parameters hlen hne
  have hsnd := List.map_snd_zip (le_of_eq hlen.symm)
  generalize hsize : total width (names.zip values) = size
  have hlength : (initOutputs b.Allugens.length size).length =
      (values.map fun v => v.numbers.length).sum := by
    rw [length_initOutputs, ← map_width_zip hlen, ← hsize, total]
  let control : UGen :=
    { name := cls, calcrate := 1, specialIndex := b.params.parameters.length, isOutUGen := false
      inputs := [], channels := initOutputs b.Allugens.length size }
  let b' : Building :=
    { params := ⟨b.params.parameters ++ values.flatMap ParamValue.numbers,
        laid 0 (given ++ names.zip values)⟩
      Allugens := b.Allugens ++ [control]
      controls := b.controls ++ [b.Allugens.length]
      handed := b.handed ++ cut values (initOutputs b.Allugens.length size) }
  have hhanded : b'.handed.flatten = b.handed.flatten ++ initOutputs b.Allugens.length size := by
    show (b.handed ++ cut values _).flatten = _
    rw [List.flatten_append, cut_flatten values _ hlength]
  have hnew : b'.Allugens[b.Allugens.length]? = some control := by
    show (b.Allugens ++ [control])[b.Allugens.length]? = some control
    simp
  refine ⟨b', ?_, ⟨rfl, ?_, ?_, ?_, ?_, ?_⟩, rfl⟩
  · unfold namesKr
    rw [hinit, ok_bind, numUnitaryOutputs_eq hlen, hsize]
  · show b.params.parameters ++ values.flatMap ParamValue.numbers = _
    rw [h.parameters, List.flatMap_append]
    congr 1
    conv_lhs => rw [← hsnd, List.flatMap_map]
  · show (b.handed ++ cut values _).map List.length = _
    rw [List.map_append, List.map_append, h.lengths, cut_lengths values _ hlength,
      map_width_zip hlen]
  · -- the new outputs count on from the parameters there were
    have hugens : b'.Allugens = b.Allugens ++ [control] := rfl
    rw [hhanded, List.map_append, h.indexOf_append hugens, h.indexes, total_append, hsize, List.range_add,
      List.map_append]
    congr 1
    simp only [initOutputs, List.map_map]
    refine List.map_congr_left fun i _ => ?_
    show (b'.Allugens[b.Allugens.length]?).map _ = _
    rw [hnew]
    show some ((b.params.parameters.length : ℤ) + ((i + 1 : ℕ) : ℤ)) = some _
    rw [h.length_parameters]
    push_cast
    ring_nf
  · intro p
    rw [hhanded, List.mem_append, ← h.isOutput p]
    constructor
    · rintro ⟨hcontrol, c, hget, hp⟩
      rcases List.mem_append.mp hcontrol with hold | hlast
      · refine Or.inl ⟨hold, c, ?_, hp⟩
        rwa [← List.getElem?_append_left (h.made p.source hold)]
      · rw [List.mem_singleton.mp hlast, hnew] at hget
        rw [← Option.some.inj hget] at hp
        exact Or.inr hp
    · rintro (⟨hold, c, hget, hp⟩ | hp)
      · refine ⟨List.mem_append_left _ hold, c, ?_, hp⟩
        show (b.Allugens ++ [control])[p.source]? = some c
        rw [List.getElem?_append_left (h.made p.source hold), hget]
      · have hsource : p.source = b.Allugens.length := by
          obtain ⟨i, -, rfl⟩ := List.mem_map.mp hp
          rfl
        refine ⟨List.mem_append_right _ ?_, control, ?_, hp⟩
        · rw [hsource]; exact List.mem_singleton_self _
        · rw [hsource]; exact hnew
  · intro u hu
    show u < (b.Allugens ++ [control]).length
    rw [List.length_append, List.length_singleton]
    rcases List.mem_append.mp hu with hold | hnew
    · exact Nat.lt_succ_of_lt (h.made u hold)
    · rw [List.mem_singleton.mp hnew]
      exact Nat.lt_succ_self _

/-- A call of `kr` without names raises. -/
theorem namesKr_unnamed {given : List (LString × ParamValue)} {b : Building} (h : Laid given b)
    (cls : LString) : namesKr cls [] [] b = .error "Init Control without names" := by
  unfold namesKr
  rw [init_unnamed h.names]
  rfl

/-! ## SynthDef -/

/-- The two groups, in the order of `pairs`. -/
theorem sortNames_eq (parametersDef : List (LString × ParamValue)) :
    sortNames parametersDef = (parametersDef.filter (fun kv => isTrig kv.1),
      parametersDef.filter fun kv => !isTrig kv.1) := by
  have hfold : ∀ (kvs : List (LString × ParamValue)) (t p : List (LString × ParamValue)),
      kvs.foldl (fun groups kv =>
        if isTrig kv.1 = true then (groups.1 ++ [kv], groups.2) else (groups.1, groups.2 ++ [kv]))
        (t, p) = (t ++ kvs.filter (fun kv => isTrig kv.1), p ++ kvs.filter fun kv => !isTrig kv.1) := by
    intro kvs
    induction kvs with
    | nil => intro t p; simp
    | cons kv kvs ih =>
      intro t p
      rw [List.foldl_cons]
      cases hk : isTrig kv.1 with
      | true => simp [hk, ih]
      | false => simp [hk, ih]
  exact hfold parametersDef [] []

/-- A group of parameters is laid out behind the others. -/
theorem declareGroup_spec {given : List (LString × ParamValue)} {b : Building}
    (h : Laid given b) (cls : LString) (group : List (LString × ParamValue)) :
    ∃ channels b', declareGroup cls group b = .ok (channels, b') ∧ Laid (given ++ group) b' ∧
      channels.length = total width group ∧
        b'.handed = b.handed ++ cut (group.map Prod.snd) channels := by
  unfold declareGroup
  by_cases hpos : 0 < group.length
  · have hzip : (group.map Prod.fst).zip (group.map Prod.snd) = group := by
      rw [List.zip_map']
      exact List.map_id' group
    have hne : group.map Prod.fst ≠ [] := by
      rw [Ne, List.map_eq_nil_iff]
      exact List.ne_nil_of_length_pos hpos
    obtain ⟨b', hrun, hlaid, hhanded⟩ := namesKr_spec h cls
      (show (group.map Prod.fst).length = (group.map Prod.snd).length by simp) hne
    rw [hzip] at hrun hlaid hhanded
    rw [if_pos hpos]
    exact ⟨_, b', hrun, hlaid, length_initOutputs _ _, hhanded⟩
  · have hempty : group = [] := List.length_eq_zero_iff.mp (by omega)
    subst hempty
    rw [if_neg hpos]
    exact ⟨[], b, rfl, by rwa [List.append_nil], rfl, by simp [cut]⟩

/-- The outputs that `cut` gives a value. -/
theorem getElem?_cut : ∀ (group : List (LString × ParamValue)) (channels : List Proxy) {i : ℕ}
    {kv : LString × ParamValue}, group[i]? = some kv →
      (cut (group.map Prod.snd) channels)[i]? =
        some ((channels.drop (offset width group i)).take (width kv)) := by
  intro group
  induction group with
  | nil => intro channels i kv h; cases h
  | cons kv₀ group ih =>
    intro channels i kv h
    cases i with
    | zero =>
      obtain rfl := Option.some.inj h
      simp [cut, width]
    | succ i =>
      have hrest := ih (channels.drop (width kv₀)) (i := i) h
      rw [List.drop_drop] at hrest
      rw [offset_cons_succ]
      exact hrest

/-- A slice, place by place. -/
theorem map_some_slice {controls : List Proxy} {n k : ℕ} (h : n + k ≤ controls.length) :
    ((controls.drop n).take k).map some = (List.range k).map fun i => controls[n + i]? := by
  refine List.ext_getElem (by simp; omega) fun i hi hi' => ?_
  rw [List.length_map, List.length_range] at hi'
  simp only [List.getElem_map, List.getElem_take, List.getElem_drop, List.getElem_range]
  rw [List.getElem?_eq_getElem (by omega)]

/-- The loop of `SynthDef` hands every name of a group the outputs that stand
for its value, and leaves other names alone. -/
theorem handOut_spec (controls : List Proxy) :
    ∀ (group : List (LString × ParamValue)) (n : ℕ) (paramControl : LuaTable LString ParamControl),
      (group.map Prod.fst).Nodup → n + total width group ≤ controls.length →
        (∀ name ∉ group.map Prod.fst,
          (handOut controls (n + 1) group paramControl).lookup name = paramControl.lookup name) ∧
        ∀ i kv, group[i]? = some kv →
          (handOut controls (n + 1) group paramControl).lookup kv.1 =
            some (.of kv.2 ((controls.drop (n + offset width group i)).take (width kv))) := by
  intro group
  induction group with
  | nil => intro n paramControl _ _; exact ⟨fun name _ => rfl, fun i kv h => by cases h⟩
  | cons kv₀ group ih =>
    intro n paramControl hnd hle
    rw [List.map_cons, List.nodup_cons] at hnd
    rw [total_cons] at hle
    obtain ⟨name₀, v₀⟩ := kv₀
    have hstep : ∃ c, handOut controls (n + 1) ((name₀, v₀) :: group) paramControl =
        handOut controls (n + width (name₀, v₀) + 1) group (paramControl.insert name₀ c) ∧
          c = .of v₀ ((controls.drop n).take (width (name₀, v₀))) := by
      cases v₀ with
      | number x =>
        refine ⟨.output controls[n]?, rfl, ?_⟩
        simp [ParamControl.of, width, ParamValue.numbers]
      | array vs =>
        refine ⟨.array ((List.range vs.length).map fun i2 => controls[n + 1 + i2 - 1]?), ?_, ?_⟩
        · rw [handOut, width, ParamValue.numbers, Nat.add_right_comm]
        · have hfit : n + vs.length ≤ controls.length := by
            have hwidth : width (name₀, .array vs) = vs.length := rfl
            omega
          rw [ParamControl.of, width, ParamValue.numbers, map_some_slice hfit]
          congr 1
          exact List.map_congr_left fun i2 _ => by congr 1; omega
    obtain ⟨c, hrun, hc⟩ := hstep
    obtain ⟨hother, hgroup⟩ := ih (n + width (name₀, v₀)) (paramControl.insert name₀ c) hnd.2
      (by omega)
    rw [hrun]
    constructor
    · intro name hname
      rw [List.map_cons, List.mem_cons, not_or] at hname
      rw [hother name hname.2, AList.lookup_insert_ne hname.1]
    · intro i kv hi
      cases i with
      | zero =>
        obtain rfl := Option.some.inj hi
        rw [hother name₀ hnd.1, AList.lookup_insert, hc]
        simp
      | succ i =>
        rw [offset_cons_succ, ← Nat.add_assoc]
        exact hgroup i kv hi

/-- What the graph function declares is laid out behind the parameters. -/
theorem run_graphfunc {given : List (LString × ParamValue)} {b : Building} (h : Laid given b)
    {graphfunc : List GraphCall} (hbal : ∀ call ∈ graphfunc, call.Balanced) :
    ((∃ b', graphfunc.foldlM GraphCall.run b = .ok b') ↔ ∀ call ∈ graphfunc, call.Named) ∧
      ∀ b', graphfunc.foldlM GraphCall.run b = .ok b' →
        Laid (given ++ graphfunc.flatMap GraphCall.declares) b' ∧
          ∃ handed, b'.handed = b.handed ++ handed := by
  induction graphfunc generalizing given b with
  | nil =>
    refine ⟨⟨fun _ call hcall => (by cases hcall), fun _ => ⟨b, rfl⟩⟩, ?_⟩
    rintro b' ⟨⟩
    exact ⟨by simpa using h, [], by simp⟩
  | cons call graphfunc ih =>
    have hrest := fun call' hcall => hbal call' (List.mem_cons_of_mem call hcall)
    have hok : ∀ (b₁ : Building) (handed : List (List Proxy)), call.run b = .ok b₁ → call.Named →
        Laid (given ++ call.declares) b₁ → b₁.handed = b.handed ++ handed →
          ((∃ b', (call :: graphfunc).foldlM GraphCall.run b = .ok b') ↔
            ∀ call' ∈ call :: graphfunc, call'.Named) ∧
          ∀ b', (call :: graphfunc).foldlM GraphCall.run b = .ok b' →
            Laid (given ++ (call :: graphfunc).flatMap GraphCall.declares) b' ∧
              ∃ handed, b'.handed = b.handed ++ handed := by
      intro b₁ handed hrun hnamed hlaid hhanded
      obtain ⟨hiff, hall⟩ := ih hlaid hrest
      rw [List.foldlM_cons, hrun, ok_bind, List.forall_mem_cons, hiff]
      refine ⟨⟨fun hcalls => ⟨hnamed, hcalls⟩, fun hcalls => hcalls.2⟩, fun b' hb' => ?_⟩
      obtain ⟨hlaid', handed', hhanded'⟩ := hall b' hb'
      rw [List.flatMap_cons, ← List.append_assoc]
      exact ⟨hlaid', handed ++ handed', by rw [hhanded', hhanded, List.append_assoc]⟩
    cases call with
    | ugen ug =>
      refine hok _ [] rfl trivial ?_ (by simp)
      have hlaid := h.ugen ug
      rwa [← List.append_nil given] at hlaid
    | kr cls names values =>
      have hlen : names.length = values.length := hbal _ (List.mem_cons_self ..)
      by_cases hne : names = []
      · -- the call raises
        subst hne
        obtain rfl := List.length_eq_zero_iff.mp hlen.symm
        have hraise : (GraphCall.kr cls [] []).run b = .error "Init Control without names" := by
          show (namesKr cls [] [] b >>= fun r => .ok r.2) = _
          rw [namesKr_unnamed h]
          rfl
        rw [List.foldlM_cons, hraise]
        refine ⟨⟨fun ⟨b', hb'⟩ => (by cases hb'), fun hall => ?_⟩, fun b' hb' => (by cases hb')⟩
        exact absurd rfl (hall _ (List.mem_cons_self ..))
      · obtain ⟨b₁, hrun, hlaid, hhanded⟩ := namesKr_spec h cls hlen hne
        refine hok b₁ _ ?_ hne hlaid hhanded
        show (namesKr cls names values b >>= fun r => .ok r.2) = _
        rw [hrun]
        rfl

/-- A stretch of the indices. -/
theorem indexes_slice {o k n : ℕ} (h : o + k ≤ n) :
    (((List.range n).map fun (i : ℕ) => some ((i : ℤ) + 1)).drop o).take k =
      (List.range' (o + 1) k).map fun (i : ℕ) => some (i : ℤ) := by
  refine List.ext_getElem (by simp; omega) fun i hi hi' => ?_
  simp only [List.getElem_take, List.getElem_drop, List.getElem_map, List.getElem_range,
    List.getElem_range']
  congr 1
  push_cast
  ring

/-- The invariant gives the mapping. -/
theorem Laid.mapping {given : List (LString × ParamValue)} {b : Building} (h : Laid given b) :
    Mapping given b fun i => offset width given i + 1 := by
  have hnext : ∀ i kv, given[i]? = some kv →
      offset width given (i + 1) = offset width given i + width kv := fun i kv hi => offset_succ hi
  have hfit : ∀ i kv, given[i]? = some kv → offset width given i + width kv ≤ total width given := by
    intro i kv hi
    rw [← hnext i kv hi]
    exact offset_le_total given (i + 1)
  refine ⟨by simp, ?_, ?_, ?_, ?_, ?_, ?_⟩
  · intro i kv hi
    rw [hnext i kv hi, Nat.add_right_comm]
  · simp [h.length_parameters]
  · intro i
    rw [h.names, getElem?_laid]
    simp only [Nat.zero_add]
  · intro k hk hle
    rw [h.length_parameters] at hle
    obtain ⟨i, ⟨hi, hge, hlt⟩, huniq⟩ := existsUnique_item
      (show k - 1 < total width given by omega)
    refine ⟨i, ⟨hi, by omega, by omega⟩, ?_⟩
    rintro j ⟨hj, hge', hlt'⟩
    exact huniq j ⟨hj, by omega, by omega⟩
  · intro i kv hi
    rw [Nat.add_sub_cancel, h.parameters]
    exact flatMap_slice (fun kv : LString × ParamValue => kv.2.numbers) hi
  · intro i kv hi
    have hwidth : (b.handed.map List.length)[i]? = some (width kv) := by
      rw [h.lengths, List.getElem?_map, hi]
      rfl
    rw [List.getElem?_map, Option.map_eq_some_iff] at hwidth
    obtain ⟨ps, hps, hlen⟩ := hwidth
    have hslice : (b.handed.flatten.drop (offset width given i)).take (width kv) = ps := by
      have hcut := flatMap_slice (fun ps : List Proxy => ps) hps
      rwa [offset_congr (show _ = given.map width from h.lengths), List.flatMap_id', hlen] at hcut
    refine ⟨ps, hps, ?_, ?_⟩
    · rw [← hslice, List.map_take, List.map_drop, h.indexes, indexes_slice (hfit i kv hi)]
    · intro p hp k hk hge hlt
      obtain ⟨m, hm⟩ := List.mem_iff_getElem?.mp ((h.isOutput p).mp hp)
      -- the output at place `m` stands for parameter `m + 1`
      have hindex : (b.handed.flatten.map b.indexOf)[m]? = some (b.indexOf p) := by
        rw [List.getElem?_map, hm]
        rfl
      rw [h.indexes, List.getElem?_map, Option.map_eq_some_iff] at hindex
      obtain ⟨m', hm', hmp⟩ := hindex
      obtain ⟨hlt', rfl⟩ := List.getElem?_eq_some_iff.mp hm'
      rw [List.getElem_range] at hmp
      have hkm : (m : ℤ) + 1 = k := Option.some.inj (hmp.trans hk)
      rw [hnext i kv hi] at hlt
      rw [← hslice]
      refine List.mem_iff_getElem?.mpr ⟨m - offset width given i, ?_⟩
      rw [List.getElem?_take_of_lt (by omega), List.getElem?_drop, ← hm]
      congr 1
      omega

/-- **SynthDef parameter mapping.** For every enumeration of the parameters and
every graph function whose declarations give as many values as names, `SynthDef`
succeeds exactly when no declaration is without a name. Then all names, those
of the graph function included, have consecutive index ranges that make up
`1 … #parameters`, with the defaults given for them and the outputs that stand
for them; and every parameter is handed to the graph function as these
outputs. -/
theorem parameter_mapping {parametersDef : List (LString × ParamValue)}
    (hkeys : (parametersDef.map Prod.fst).Nodup) {graphfunc : List GraphCall}
    (hbal : ∀ call ∈ graphfunc, call.Balanced) :
    ((∃ r, SynthDef parametersDef graphfunc = .ok r) ↔ ∀ call ∈ graphfunc, call.Named) ∧
      ∀ (paramControl : LuaTable LString ParamControl) (b : Building),
        SynthDef parametersDef graphfunc = .ok (paramControl, b) →
        (∃ index, Mapping (declared parametersDef graphfunc) b index) ∧
          ∀ kv ∈ parametersDef, ∃ (i : ℕ) (ps : List Proxy),
            (declared parametersDef graphfunc)[i]? = some kv ∧ b.handed[i]? = some ps ∧
              paramControl.lookup kv.1 = some (.of kv.2 ps) := by
  have hgroups := sortNames_eq parametersDef
  have hdeclared : declared parametersDef graphfunc = parametersDef.filter (fun kv => isTrig kv.1) ++
      parametersDef.filter (fun kv => !isTrig kv.1) ++ graphfunc.flatMap GraphCall.declares := rfl
  have htrigs : ∀ kv, kv ∈ parametersDef.filter (fun kv => isTrig kv.1) ↔
      kv ∈ parametersDef ∧ isTrig kv.1 = true := fun kv => List.mem_filter
  have hplain : ∀ kv, kv ∈ parametersDef.filter (fun kv => !isTrig kv.1) ↔
      kv ∈ parametersDef ∧ (!isTrig kv.1) = true := fun kv => List.mem_filter
  have hnodup₁ : ((parametersDef.filter fun kv => isTrig kv.1).map Prod.fst).Nodup :=
    hkeys.sublist (List.filter_sublist.map Prod.fst)
  have hnodup₂ : ((parametersDef.filter fun kv => !isTrig kv.1).map Prod.fst).Nodup :=
    hkeys.sublist (List.filter_sublist.map Prod.fst)
  generalize parametersDef.filter (fun kv => isTrig kv.1) = trigs at *
  generalize parametersDef.filter (fun kv => !isTrig kv.1) = plain at *
  obtain ⟨t_controls, b₁, hrun₁, hlaid₁, hlen₁, hhanded₁⟩ := declareGroup_spec Laid.nil
    (ascii "TrigControl") trigs
  obtain ⟨controls, b₂, hrun₂, hlaid₂, hlen₂, hhanded₂⟩ := declareGroup_spec hlaid₁
    (ascii "Control") plain
  obtain ⟨hiff, hall⟩ := run_graphfunc hlaid₂ hbal
  have hrun : SynthDef parametersDef graphfunc = (graphfunc.foldlM GraphCall.run b₂ >>= fun b =>
      .ok (handOut controls 1 plain
        (handOut t_controls 1 trigs ∅), b)) := by
    unfold SynthDef
    rw [hgroups]
    simp only [hrun₁, hrun₂, ok_bind]
  rw [hrun]
  constructor
  · rw [← hiff]
    constructor
    · rintro ⟨r, hr⟩
      obtain ⟨b', hb', -⟩ := bind_ok.mp hr
      exact ⟨b', hb'⟩
    · rintro ⟨b', hb'⟩
      exact ⟨_, bind_ok.mpr ⟨b', hb', rfl⟩⟩
  · intro paramControl b hr
    obtain ⟨b', hb', hret⟩ := bind_ok.mp hr
    obtain ⟨hcontrol, rfl⟩ := Prod.mk.inj (Except.ok.inj hret)
    obtain ⟨hlaid, handed, hhanded⟩ := hall b' hb'
    rw [List.nil_append] at hlaid hhanded₁
    rw [hhanded₂, hhanded₁] at hhanded
    rw [hdeclared]
    refine ⟨⟨_, hlaid.mapping⟩, fun kv hkv => ?_⟩
    rw [← hcontrol]
    obtain ⟨-, hhand₁⟩ := handOut_spec t_controls trigs 0 ∅ hnodup₁ (by omega)
    obtain ⟨hother, hhand₂⟩ := handOut_spec controls plain 0
      (handOut t_controls 1 trigs ∅) hnodup₂ (by omega)
    have hcut : (cut (trigs.map Prod.snd) t_controls).length =
        trigs.length := by
      rw [length_cut, List.length_map]
    by_cases htrig : isTrig kv.1 = true
    · have hmem : kv ∈ trigs := (htrigs kv).mpr ⟨hkv, htrig⟩
      obtain ⟨i, hi⟩ := List.mem_iff_getElem?.mp hmem
      have hlt := (List.getElem?_eq_some_iff.mp hi).1
      refine ⟨i, (t_controls.drop (offset width trigs i)).take (width kv), ?_, ?_, ?_⟩
      · rw [List.append_assoc, List.getElem?_append_left hlt, hi]
      · rw [hhanded, List.append_assoc, List.getElem?_append_left (by rw [hcut]; exact hlt)]
        exact getElem?_cut _ t_controls hi
      · -- the other group has no name that begins with `t_`
        have hname : kv.1 ∉ plain.map Prod.fst := by
          intro hmem
          obtain ⟨kv', hkv', heq⟩ := List.mem_map.mp hmem
          have hnot := ((hplain kv').mp hkv').2
          rw [heq, htrig] at hnot
          cases hnot
        rw [hother kv.1 hname, hhand₁ i kv hi, Nat.zero_add]
    · have hnot : (!isTrig kv.1) = true := by simpa using htrig
      have hmem : kv ∈ plain := (hplain kv).mpr ⟨hkv, hnot⟩
      obtain ⟨i, hi⟩ := List.mem_iff_getElem?.mp hmem
      have hlt := (List.getElem?_eq_some_iff.mp hi).1
      refine ⟨trigs.length + i, (controls.drop (offset width plain i)).take (width kv), ?_, ?_, ?_⟩
      · rw [List.append_assoc, List.getElem?_append_right (Nat.le_add_right _ _),
          Nat.add_sub_cancel_left, List.getElem?_append_left hlt, hi]
      · rw [hhanded, List.append_assoc, ← hcut, List.getElem?_append_right (Nat.le_add_right _ _),
          Nat.add_sub_cancel_left, List.getElem?_append_left (by
            rw [length_cut, List.length_map]; exact hlt)]
        exact getElem?_cut _ controls hi
      · rw [hhand₂ i kv hi, Nat.zero_add]

/-- A number, a trigger and an array, and a name that the graph function
declares. -/
def fourParameters : List (LString × ParamValue) × List GraphCall :=
  ([(ascii "amp", .number (.finite 1)), (ascii "t_gate", .number (.finite 0)),
      (ascii "envel", .array [.finite 1, .finite 0])],
    [.ugen ⟨ascii "SinOsc", 2, 0, false, [], []⟩,
      .kr (ascii "Control") [ascii "bus"] [.number (.finite 0)]])

/-- The four parameters are declared, and mapped. -/
theorem four_parameters : ∃ (paramControl : LuaTable LString ParamControl) (b : Building),
    SynthDef fourParameters.1 fourParameters.2 = .ok (paramControl, b) ∧
      ∃ index, Mapping (declared fourParameters.1 fourParameters.2) b index := by
  have hbal : ∀ call ∈ fourParameters.2, call.Balanced := by
    simp [fourParameters, GraphCall.Balanced]
  have hnamed : ∀ call ∈ fourParameters.2, call.Named := by
    simp [fourParameters, GraphCall.Named]
  obtain ⟨hiff, hall⟩ := parameter_mapping
    (show (fourParameters.1.map Prod.fst).Nodup by decide) hbal
  obtain ⟨⟨paramControl, b⟩, hrun⟩ := hiff.mpr hnamed
  exact ⟨paramControl, b, hrun, (hall paramControl b hrun).1⟩

/-- Parameter 2 is the output of `amp`, whatever the order of `pairs`: the
trigger comes first. -/
example : (SynthDef fourParameters.1 fourParameters.2).toOption.map
    (fun r => r.1.lookup (ascii "amp")) = some (some (.output (some ⟨1, 1⟩))) := by
  decide +kernel

end Lua2SC.SynthDef

import Lua2SC.SynthDef.Build
import Lua2SC.Lib.PostOrder

/-!
# `VSTPlugin.lua`: the index a controller addresses its plugin by

scsynth finds the target of a `/u_cmd` by its place among the UGens of the
compiled SynthDef, the order of `indugens` that `makeDefStr` writes.
`VSTPluginController:new` looks the plugin up in `Allugens`, where `UGen:new1`
appends in the order of creation, and sends that place instead. Every match
calls `init`, so the last one stays.

The two orders are compared without running the walk. The walk of `build` is a
`Walks` over the inputs of each UGen (`build_walks`), so the position of a UGen
in `indugens` is the number of UGens that are `Ahead` of it: those it reads,
and those reached from a terminal or an input on the left of the way to it.
The position in `Allugens` is the number of UGens created before it.
`synthIndex_iff` says that the index sent is right exactly when these two
numbers agree.

A UGen's `id` is whatever `VSTPlugin:init` was given, nil unless it was; it is
a parameter here, since nothing but the lookup reads it.
-/

namespace Lua2SC.SynthDef

open Lua2SC.Lua Lua2SC.Topo Relation

variable {g : List UGen}

/-! ## The walk of `build` as a walk over inputs -/

/-- The UGen behind an input. -/
def Input.actualugen? : Input → Option UGenId
  | .number _ => none
  | .ref r => some r.actualugen

/-- The UGens behind the inputs of `u`, in order. -/
def inputUGens (g : List UGen) (u : UGenId) : List UGenId :=
  match g[u]? with
  | none => []
  | some ug => ug.inputs.filterMap Input.actualugen?

/-- The loop over inputs walks over the UGens behind them, if the recursive call does. -/
theorem doInput_walks {fuel : ℕ} (hclosed : Closed g) (hac : Acyclic (Reads g)) {u : UGenId}
    {stack : List UGenId} (hstack : ∀ s ∈ stack, TransGen (Reads g) s u)
    (hwalk : ∀ (r : Ref) (st st' : BuildState), Inv g st (u :: stack) →
      (∀ s ∈ u :: stack, TransGen (Reads g) s r.actualugen) → r.actualugen < g.length →
      g.length < fuel + st.indugens.length + (u :: stack).length →
      doInputs g fuel r (some u) st = .ok st' →
      Walks (inputUGens g) [r.actualugen] st.indugens st'.indugens) :
    ∀ (vs : List Input) (st st' : BuildState), Inv g st (u :: stack) →
      (∀ r, Input.ref r ∈ vs → Reads g u r.actualugen) →
      g.length < fuel + st.indugens.length + (u :: stack).length →
      vs.foldlM (doInput (doInputs g fuel) u) st = .ok st' →
      Walks (inputUGens g) (vs.filterMap Input.actualugen?) st.indugens st'.indugens := by
  intro vs
  induction vs with
  | nil => intro st st' _ _ _ h; cases h; exact Walks.nil _
  | cons v vs ih =>
    intro st st' hinv hreads hfuel h
    rw [List.foldlM_cons] at h
    obtain ⟨st₁, hst₁, hrest⟩ := bind_ok.mp h
    have hreads' : ∀ r, Input.ref r ∈ vs → Reads g u r.actualugen :=
      fun r hr => hreads r (List.mem_cons_of_mem _ hr)
    cases v with
    | number x =>
      cases hst₁
      show Walks _ (vs.filterMap Input.actualugen?) _ _
      have hothers := ih _ st' (hinv.addConstant x) hreads' (by simpa using hfuel) hrest
      rwa [addConstant_indugens] at hothers
    | ref r =>
      have hur : Reads g u r.actualugen := hreads r (List.mem_cons_self ..)
      have habove : ∀ s ∈ u :: stack, TransGen (Reads g) s r.actualugen :=
        transGen_push hstack hur
      have hlt := hclosed _ _ hur
      have hfirst := hwalk r st st₁ hinv habove hlt hfuel hst₁
      -- the state in between is the one the invariant is known for
      obtain ⟨st₁', hst₁', hinv₁, hgrow₁, -⟩ :=
        doInputs_spec hclosed hac fuel r (some u) st (u :: stack) hinv habove hlt hfuel
      have heq : st₁' = st₁ := Except.ok.inj (hst₁'.symm.trans hst₁)
      subst heq
      have hlen := hgrow₁.indugens.length_le
      have hothers := ih st₁' st' hinv₁ hreads' (by omega) hrest
      exact hfirst.cons hothers

/-- **`doInputs` walks.** The induction is on the fuel, as in `doInputs_spec`. -/
theorem doInputs_walks (hclosed : Closed g) (hac : Acyclic (Reads g)) :
    ∀ (fuel : ℕ) (r : Ref) (suc : Option UGenId) (st st' : BuildState) (stack : List UGenId),
      Inv g st stack → (∀ s ∈ stack, TransGen (Reads g) s r.actualugen) →
      r.actualugen < g.length → g.length < fuel + st.indugens.length + stack.length →
      doInputs g fuel r suc st = .ok st' →
      Walks (inputUGens g) [r.actualugen] st.indugens st'.indugens := by
  intro fuel
  induction fuel with
  | zero => intro r suc st st' stack _ _ _ _ h; exact absurd h (by simp [doInputs])
  | succ fuel ih =>
    intro r suc st st' stack hinv hstack hlt hfuel h
    have hinv₀ := hinv.addSucesor r.actualugen suc
    unfold doInputs at h
    dsimp only at h
    cases hvis : st.visited r.actualugen with
    | true =>
      -- visited and not open, hence numbered
      have hnot : r.actualugen ∉ stack := fun hs => hac _ (hstack _ hs)
      have hmem : r.actualugen ∈ st.indugens := ((hinv.visited _).mp hvis).resolve_right hnot
      rw [addSucesor_visited, if_pos hvis] at h
      cases h
      rw [addSucesor_indugens]
      exact Walks.seen hmem (Walks.nil _)
    | false =>
      have hnot : r.actualugen ∉ st.indugens := by
        intro hm
        have hv := (hinv.visited _).mpr (Or.inl hm)
        rw [hvis] at hv
        exact absurd hv (by simp)
      obtain ⟨ug, hug⟩ : ∃ ug, g[r.actualugen]? = some ug := ⟨_, List.getElem?_eq_getElem hlt⟩
      rw [addSucesor_visited, if_neg (by simp [hvis]), hug] at h
      obtain ⟨st₁, hst₁, hret⟩ := bind_ok.mp h
      cases hret
      have hopen := hinv₀.visit (by simpa using hvis) hlt
      have hkids := doInput_walks hclosed hac hstack
        (fun r' s s' => ih r' (some r.actualugen) s s' (r.actualugen :: stack)) ug.inputs _ st₁ hopen
        (fun r' hr' => ⟨ug, hug, r', hr', rfl⟩) (by simp [BuildState.visit]; omega) hst₁
      have hinputs : inputUGens g r.actualugen = ug.inputs.filterMap Input.actualugen? := by
        simp [inputUGens, hug]
      refine Walks.visit hnot ?_ (Walks.nil _)
      rw [hinputs]
      simpa [BuildState.visit] using hkids

/-- The walk over the terminals. -/
theorem walkTerminals_walks (hclosed : Closed g) (hac : Acyclic (Reads g)) :
    ∀ (ts : List UGenId) (st st' : BuildState), (∀ t ∈ ts, t < g.length) → Inv g st [] →
      walkTerminals g ts st = .ok st' → Walks (inputUGens g) ts st.indugens st'.indugens := by
  intro ts
  induction ts with
  | nil => intro st st' _ _ h; cases h; exact Walks.nil _
  | cons t ts ih =>
    intro st st' hlt hinv h
    unfold walkTerminals at h
    rw [List.foldlM_cons] at h
    obtain ⟨st₁, hst₁, hrest⟩ := bind_ok.mp h
    have ht := hlt t (List.mem_cons_self ..)
    have hfirst := doInputs_walks hclosed hac (g.length + 1) (.ugen t) none st st₁ [] hinv
      (by simp) ht (by simp; omega) hst₁
    obtain ⟨st₁', hst₁', hinv₁, -, -⟩ :=
      doInputs_spec hclosed hac (g.length + 1) (.ugen t) none st [] hinv (by simp) ht
        (by simp; omega)
    have heq : st₁' = st₁ := Except.ok.inj (hst₁'.symm.trans hst₁)
    subst heq
    exact hfirst.cons (ih st₁' st' (fun t ht => hlt t (List.mem_cons_of_mem _ ht)) hinv₁ hrest)

/-- What `build` leaves in `indugens` is a walk over the terminals. -/
theorem build_walks {d d' : SYNTHDef} (hfresh : d.Fresh) (hg : d.AcyclicGraph)
    (hsome : d.Allugens = some g) (hbuild : d.build = .ok d') :
    Walks (inputUGens g) (findTerminals g) [] d'.st.indugens := by
  obtain ⟨hclosed, hac⟩ := hg g hsome
  have hinv₀ : Inv g { d.st with ugens := ∅, indugens := [], constants := ∅ } [] :=
    ⟨by simp [hfresh.visited], by simp, by simp, Topological.nil, by simp⟩
  simp only [SYNTHDef.build, hsome] at hbuild
  obtain ⟨st, hst, hrest⟩ := bind_ok.mp hbuild
  obtain ⟨_, -, hret⟩ := bind_ok.mp hrest
  cases hret
  exact walkTerminals_walks hclosed hac (findTerminals g) _ st
    (fun t ht => (mem_findTerminals.mp ht).1) hinv₀ hst

/-- **The position of a UGen in the compiled SynthDef** is the number of UGens
ahead of it. -/
theorem indugens_position {d d' : SYNTHDef} (hfresh : d.Fresh) (hg : d.AcyclicGraph)
    (hsome : d.Allugens = some g) (hbuild : d.build = .ok d') {u : UGenId} (hu : u < g.length)
    (i : ℕ) : d'.st.indugens[i]? = some u ↔
      {w | Ahead (inputUGens g) u (findTerminals g) w}.ncard = i := by
  have hwalk := build_walks hfresh hg hsome hbuild
  obtain ⟨st, hst, htopo, -⟩ := build_spec hfresh hg hsome
  rw [hst] at hbuild
  cases hbuild
  have hnd : st.indugens.Nodup := htopo.perm.nodup_iff.mpr List.nodup_range
  have hmem : u ∈ st.indugens := htopo.perm.mem_iff.mpr (List.mem_range.mpr hu)
  have hreach := ((hwalk.mem_iff (by intro a ha; exact absurd ha (by simp))).2 u).mp hmem
  exact hwalk.position hnd (hreach.resolve_left (by simp)) i

/-! ## `VSTPluginController` -/

section Controller

variable {κ β : Type*} [DecidableEq κ]

/-- What `new` sets of the controller; `synthIndex` is nil until `init`. -/
structure VSTPluginController where
  synthIndex : Option ℕ
deriving DecidableEq, Repr

/-- `self.synthIndex = theIndex`. -/
def VSTPluginController.init (_self : VSTPluginController) (theIndex : ℕ) : VSTPluginController :=
  ⟨some theIndex⟩

/-- The test of the loop in `new`: a plugin, and the one asked for or any. -/
def isAddressed (ids : UGenId → Option κ) (id : Option κ) (ugen : UGen) (u : UGenId) : Bool :=
  ugen.name == ascii "VSTPlugin" && (ids u == id || id.isNone)

/-- `VSTPluginController:new(synth, id, synthdef, wait)`: the loop over `Allugens`. -/
def VSTPluginController.new (ids : UGenId → Option κ) (id : Option κ) (Allugens : List UGen) :
    VSTPluginController :=
  Allugens.zipIdx.foldl
    (fun o ugen => if isAddressed ids id ugen.1 ugen.2 then o.init ugen.2 else o) ⟨none⟩

/-- A `/u_cmd` message. -/
structure UCmd (β : Type*) where
  path : LString
  nodeID : ℕ
  synthIndex : Option ℕ
  cmd : LString
  args : List β

/-- `VSTPluginController:Msg(cmd, ...)`; `sendMsg` sends the same. -/
def VSTPluginController.Msg (self : VSTPluginController) (nodeID : ℕ) (cmd : LString)
    (args : List β) : UCmd β :=
  ⟨ascii "/u_cmd", nodeID, self.synthIndex, cmd, args⟩

/-- The UGen the controller is for: the last plugin that matches. -/
def addressedUGen (ids : UGenId → Option κ) (id : Option κ) (Allugens : List UGen) :
    Option UGenId :=
  ((Allugens.zipIdx.filter fun ugen => isAddressed ids id ugen.1 ugen.2).map Prod.snd).getLast?

/-- The controller sends the place of its UGen in `Allugens`. -/
theorem new_synthIndex (ids : UGenId → Option κ) (id : Option κ) (Allugens : List UGen) :
    (VSTPluginController.new ids id Allugens).synthIndex = addressedUGen ids id Allugens := by
  unfold VSTPluginController.new addressedUGen
  generalize Allugens.zipIdx = l
  induction l using List.reverseRecOn with
  | nil => rfl
  | append_singleton l ugen ih =>
    rw [List.foldl_concat, List.filter_append, List.map_append]
    by_cases h : isAddressed ids id ugen.1 ugen.2
    · simp [h, VSTPluginController.init]
    · simpa [h] using ih

/-- The UGen addressed is one of `Allugens`. -/
theorem addressedUGen_lt {ids : UGenId → Option κ} {id : Option κ} {u : UGenId}
    (h : addressedUGen ids id g = some u) : u < g.length := by
  have hmem := List.mem_of_getLast? h
  obtain ⟨⟨ug, i⟩, hi, rfl⟩ := List.mem_map.mp hmem
  have hget := List.mem_zipIdx_iff_getElem?.mp (List.mem_of_mem_filter hi)
  exact (List.getElem?_eq_some_iff.mp hget).1

/-- **The index of a `/u_cmd` is the plugin's position in the compiled SynthDef
exactly when** as many UGens are ahead of the plugin as were created before it. -/
theorem synthIndex_iff {d d' : SYNTHDef} (hfresh : d.Fresh) (hg : d.AcyclicGraph)
    (hsome : d.Allugens = some g) (hbuild : d.build = .ok d') {ids : UGenId → Option κ}
    {id : Option κ} {u : UGenId} (hu : addressedUGen ids id g = some u) (nodeID : ℕ)
    (cmd : LString) (args : List β) :
    (∃ i, ((VSTPluginController.new ids id g).Msg nodeID cmd args).synthIndex = some i ∧
        d'.st.indugens[i]? = some u) ↔
      {w | Ahead (inputUGens g) u (findTerminals g) w}.ncard = u := by
  have hindex : ((VSTPluginController.new ids id g).Msg nodeID cmd args).synthIndex = some u :=
    (new_synthIndex ids id g).trans hu
  rw [hindex, ← indugens_position hfresh hg hsome hbuild (addressedUGen_lt hu) u]
  constructor
  · rintro ⟨i, hi, hpos⟩
    rwa [← Option.some.inj hi] at hpos
  · intro hpos
    exact ⟨u, rfl, hpos⟩

end Controller

/-! ## Two SynthDefs with a plugin -/

/-- A SynthDef around the UGens, not built yet. -/
def defOf (g : List UGen) : SYNTHDef where
  name := ascii "insert"
  Allugens := some g
  parameters := []
  paramnames := []
  reblock := none
  resample := none
  isBuild := false
  outputugens := []
  st := ⟨fun _ => false, fun _ => [], [], ∅, ∅⟩
  compiledStr := none

theorem defOf_fresh (g : List UGen) : (defOf g).Fresh := ⟨rfl, fun _ => rfl, fun _ => rfl⟩

theorem defOf_acyclic (h : readsBefore g = true) : (defOf g).AcyclicGraph := by
  refine acyclicGraph_of_readsBefore fun g' hg' => ?_
  cases hg'
  exact h

/-- `VSTPlugin.ar` with one output and the one input `u`. -/
def plugin (self u : UGenId) : UGen :=
  ⟨ascii "VSTPlugin", 2, 0, false,
    [.number (.finite 1), .number (.finite 0), .number (.finite 0), .number (.finite 1),
      .ref (.ugen u), .number (.finite 0), .number (.finite 0)], [⟨self, 1⟩]⟩

def sinOsc : UGen :=
  ⟨ascii "SinOsc", 2, 0, false, [.number (.finite 440), .number (.finite 0)], []⟩

def out (bus : ℚ) (r : Ref) : UGen :=
  ⟨ascii "Out", 2, 0, true, [.number (.finite bus), .ref r], []⟩

/-- `Out.ar(0, VSTPlugin.ar({SinOsc.ar(440)}))`. -/
def insertUGens : List UGen := [sinOsc, plugin 1 0, out 0 (.proxy ⟨1, 1⟩)]

/-- The same with a noise created first and sent to another bus last. -/
def besideNoise : List UGen :=
  [⟨ascii "WhiteNoise", 2, 0, false, [], []⟩, sinOsc, plugin 2 1, out 0 (.proxy ⟨2, 1⟩),
    out 1 (.ugen 0)]

/-- In a plain chain the index is right, and one UGen is ahead of the plugin. -/
theorem insert_addressed : ∃ d', (defOf insertUGens).build = .ok d' ∧
    ((∃ i, ((VSTPluginController.new (fun _ => (none : Option ℕ)) none insertUGens).Msg 1000
        (ascii "/open") ([] : List ℕ)).synthIndex = some i ∧ d'.st.indugens[i]? = some 1) ↔
      {w | Ahead (inputUGens insertUGens) 1 (findTerminals insertUGens) w}.ncard = 1) ∧
    d'.st.indugens[1]? = some 1 := by
  have hac : (defOf insertUGens).AcyclicGraph := defOf_acyclic (by decide)
  obtain ⟨st, hst, -⟩ := build_spec (defOf_fresh insertUGens) hac rfl
  have hrun : (defOf insertUGens).build.toOption.map (fun d => d.st.indugens) = some [0, 1, 2] := by
    decide +kernel
  rw [hst] at hrun
  have hind : st.indugens = [0, 1, 2] := Option.some.inj hrun
  refine ⟨_, hst, ?_, by simp [hind]⟩
  exact synthIndex_iff (defOf_fresh insertUGens) hac rfl hst (by decide) 1000 (ascii "/open") []

/-- **The plugin is addressed as UGen 2 and compiled as UGen 1**: the noise was
created before it and is reached after it. -/
theorem besideNoise_misaddressed : (defOf besideNoise).Fresh ∧ (defOf besideNoise).AcyclicGraph ∧
    addressedUGen (fun _ => (none : Option ℕ)) none besideNoise = some 2 ∧
    (VSTPluginController.new (fun _ => (none : Option ℕ)) none besideNoise).synthIndex = some 2 ∧
    ∃ d', (defOf besideNoise).build = .ok d' ∧ d'.st.indugens = [1, 2, 3, 0, 4] ∧
      d'.st.indugens[2]? ≠ some 2 := by
  have hac : (defOf besideNoise).AcyclicGraph := defOf_acyclic (by decide)
  obtain ⟨st, hst, -⟩ := build_spec (defOf_fresh besideNoise) hac rfl
  have hrun : (defOf besideNoise).build.toOption.map (fun d => d.st.indugens) =
      some [1, 2, 3, 0, 4] := by
    decide +kernel
  rw [hst] at hrun
  have hind : st.indugens = [1, 2, 3, 0, 4] := Option.some.inj hrun
  exact ⟨defOf_fresh besideNoise, hac, by decide, by decide, _, hst, hind, by simp [hind]⟩

end Lua2SC.SynthDef

import Lua2SC.Lib.Dataflow
import Lua2SC.SynthDef.RoundTrip

/-!
# What a SynthDef means, and what its file computes

A UGen makes its outputs out of its inputs, and in a graph the inputs are numbers and outputs of
other UGens. So a graph is a system of equations, one for each UGen, over signals of any kind.
What the signals are and what a UGen of some class does to them is an `Interpretation`; it may use
the parameters of the SynthDef, as a `Control` does. A UGen that draws random numbers or acts on
a bus, a buffer or a node is more than such a function.

Whoever is sent the file has only the list of UGens that is in it. `SynthRead.exec` takes them in
their order, and the inputs of each from the constants and from the outputs there are by then.
`build` has put the UGens in an order in which that never fails, and the file keeps the order,
the wiring and the constants, so that what comes out is the only solution of the equations of the
graph (`makeDefStr_computes`). A constant is worth what its binary32 form is worth.
-/

namespace Lua2SC.SynthDef

open Lua2SC.Lua Lua2SC.Codec Lua2SC.Topo Lua2SC.Dataflow

/-- What numbers and UGens stand for. -/
structure Interpretation (V : Type) where
  const : LuaNumber → V
  ugen (name : LString) (calcrate special : ℤ) (outputs : ℕ) (parameters inputs : List V) : List V
  length_ugen : ∀ name calcrate special outputs parameters inputs,
    (ugen name calcrate special outputs parameters inputs).length = outputs

/-- The number that a float field with `x` in it is read as. -/
def float32 (x : LuaNumber) : LuaNumber :=
  match float2str x with
  | .ok s => (str2float32 s).toOption.getD x
  | .error _ => x

theorem float32_eq {x y : LuaNumber} (h : Float32Of x y) : float32 x = y := by
  obtain ⟨s, hs, hy⟩ := h
  rw [float32, hs]
  show (str2float32 s).toOption.getD x = y
  rw [hy]
  rfl

variable {V : Type} (I : Interpretation V)

/-! ## The graph -/

/-- The value of an input, by the outputs of the UGens. -/
def inputValue (f : UGenId → Option (List V)) : Input → Option V
  | .number x => some (I.const (float32 x))
  | .ref r => (f r.actualugen).bind fun outs => at1 outs r.outputIndex

/-- The equation of a UGen. -/
def ugenValue (g : List UGen) (parameters : List V) (u : UGenId)
    (f : UGenId → Option (List V)) : Option (List V) := do
  let ug ← g[u]?
  let inputs ← ug.inputs.mapM (inputValue I f)
  return I.ugen ug.name ug.calcrate ug.specialIndex ug.numOutputs parameters inputs

/-- The values the parameters start with. -/
def parameterValues (parameters : List LuaNumber) : List V :=
  parameters.map fun x => I.const (float32 x)

/-- The outputs of the UGens, as all their equations ask for. -/
def Means (g : List UGen) (parameters : List LuaNumber) (f : UGenId → Option (List V)) : Prop :=
  ∀ u < g.length, (f u).isSome = true ∧ f u = ugenValue I g (parameterValues I parameters) u f

/-- Every input that is a UGen is an output that this UGen has. -/
def Wired (g : List UGen) : Prop :=
  ∀ (u : UGenId) (ug : UGen) (r : Ref), g[u]? = some ug → Input.ref r ∈ ug.inputs →
    ∃ source, g[r.actualugen]? = some source ∧
      1 ≤ r.outputIndex ∧ r.outputIndex ≤ source.numOutputs

/-! ## The file -/

/-- The value of an input of the file, behind the UGens with the outputs `acc`. -/
def readValue (acc : List (List V)) (spec : InputSpec) : Option V :=
  if spec.i1 = 0 then spec.valor.map I.const
  else (at1 acc spec.i1).bind fun outs => at1 outs spec.i2

/-- The next UGen of the file. -/
def execUGen (parameters : List V) (acc : List (List V)) (spec : UGenSpec) :
    Option (List (List V)) := do
  let inputs ← spec.inputspec.mapM (readValue I acc)
  return acc ++ [I.ugen spec.name spec.calcrate spec.special spec.outputs.toNat parameters inputs]

/-- What whoever reads the file makes of it: the outputs of its UGens. -/
def SynthRead.exec (r : SynthRead) : Option (List (List V)) :=
  r.ugens.foldlM (execUGen I (r.parameters.map I.const)) []

/-! ## The graph as a network -/

section Network

variable {I} {g : List UGen}

theorem inputValue_congr {f f' : UGenId → Option (List V)} {v : Input}
    (h : ∀ r, v = .ref r → f r.actualugen = f' r.actualugen) :
    inputValue I f v = inputValue I f' v := by
  cases v with
  | number x => rfl
  | ref r => rw [inputValue, inputValue, h r rfl]

theorem mapM_congr {α β γ : Type} {R : α → β → Prop} {f : α → Option γ} {f' : β → Option γ}
    {xs : List α} {ys : List β} (h : List.Forall₂ R xs ys)
    (hf : ∀ x ∈ xs, ∀ y, R x y → f x = f' y) : xs.mapM f = ys.mapM f' := by
  induction h with
  | nil => rfl
  | cons hxy _ ih =>
    rw [List.mapM_cons, List.mapM_cons, hf _ List.mem_cons_self _ hxy,
      ih fun x hx => hf x (List.mem_cons_of_mem _ hx)]

variable (I g)

/-- A graph, and what its UGens do. -/
def network (parameters : List V) : Network UGenId (List V) where
  reads := Reads g
  value u f := ugenValue I g parameters u f
  value_congr := by
    intro u f f' h
    unfold ugenValue
    cases hug : g[u]? with
    | none => rfl
    | some ug =>
      have hinputs : ug.inputs.mapM (inputValue I f) = ug.inputs.mapM (inputValue I f') := by
        refine mapM_congr (R := Eq) (List.forall₂_refl _) ?_
        rintro v hv _ rfl
        exact inputValue_congr fun r hr => h _ ⟨ug, hug, r, hr ▸ hv, rfl⟩
      show (ug.inputs.mapM (inputValue I f)).bind _ = (ug.inputs.mapM (inputValue I f')).bind _
      rw [hinputs]

variable {I g}

/-- What there is to be good for: a UGen has as many outputs as its class says. -/
def Full (g : List UGen) (u : UGenId) (outs : List V) : Prop :=
  ∃ ug, g[u]? = some ug ∧ outs.length = ug.numOutputs

theorem at1_isSome {α : Type} {l : List α} {i : ℕ} (h₁ : 1 ≤ i) (h : i ≤ l.length) :
    ∃ a, at1 l i = some a := by
  have hlt : ((i : ℤ) - 1).toNat < l.length := by omega
  exact ⟨_, by rw [at1, if_pos (by omega), List.getElem?_eq_getElem hlt]⟩

theorem mapM_isSome {α β : Type} {f : α → Option β} {xs : List α}
    (h : ∀ x ∈ xs, ∃ y, f x = some y) : ∃ ys, xs.mapM f = some ys := by
  induction xs with
  | nil => exact ⟨[], rfl⟩
  | cons x xs ih =>
    obtain ⟨y, hy⟩ := h x List.mem_cons_self
    obtain ⟨ys, hys⟩ := ih fun z hz => h z (List.mem_cons_of_mem _ hz)
    refine ⟨y :: ys, ?_⟩
    rw [List.mapM_cons, hy, hys]
    rfl

/-- A UGen behind full ones has its outputs. -/
theorem value_full (hwired : Wired g) (parameters : List V) {u : UGenId} (hu : u < g.length)
    {f : UGenId → Option (List V)} (hf : ∀ v, Reads g u v → ∃ outs, f v = some outs ∧ Full g v outs) :
    ∃ outs, (network I g parameters).value u f = some outs ∧ Full g u outs := by
  have hug : g[u]? = some g[u] := List.getElem?_eq_getElem hu
  have hinput : ∀ v ∈ g[u].inputs, ∃ y, inputValue I f v = some y := by
    intro v hv
    cases v with
    | number x => exact ⟨_, rfl⟩
    | ref r =>
      obtain ⟨outs, houts, source, hsource, hlen⟩ := hf r.actualugen ⟨g[u], hug, r, hv, rfl⟩
      obtain ⟨source', hsource', h₁, h⟩ := hwired u g[u] r hug hv
      obtain rfl : source = source' := Option.some.inj (hsource.symm.trans hsource')
      obtain ⟨y, hy⟩ := at1_isSome h₁ (hlen ▸ h)
      exact ⟨y, by rw [inputValue, houts]; exact hy⟩
  obtain ⟨inputs, hinputs⟩ := mapM_isSome hinput
  refine ⟨I.ugen g[u].name g[u].calcrate g[u].specialIndex g[u].numOutputs parameters inputs,
    ?_, g[u], hug, I.length_ugen ..⟩
  show ugenValue I g parameters u f = _
  unfold ugenValue
  rw [hug]
  show (g[u].inputs.mapM (inputValue I f)).bind _ = _
  rw [hinputs]
  rfl

end Network

/-! ## The list of the file runs the network -/

section Exec

variable {I} {b : SYNTHDef} {g : List UGen}

/-- An input says the same as what was read of it, once the UGens in front have their outputs. -/
theorem readValue_eq (hb : TopologicalBuild g b.st) {done todo : List UGenId}
    (hsplit : b.st.indugens = done ++ todo) {m : UGenId → Option (List V)} {acc : List (List V)}
    (hacc : acc.map some = done.map m) {v : Input} {spec : InputSpec} (hsame : SameInput b v spec)
    (hfront : ∀ r, v = .ref r → r.actualugen ∈ done) :
    inputValue I m v = readValue I acc spec := by
  cases v with
  | number x =>
    obtain ⟨hi, y, hy, hxy⟩ := hsame
    rw [readValue, if_pos hi, hy, inputValue, float32_eq hxy]
    rfl
  | ref r =>
    obtain ⟨-, hi₂, k, hi₁, hk⟩ := hsame
    have hnd : b.st.indugens.Nodup := hb.perm.nodup_iff.mpr List.nodup_range
    -- the position that was written is one of those in front
    obtain ⟨j, hj⟩ := List.mem_iff_getElem?.mp (hfront r rfl)
    have hjlt := (List.getElem?_eq_some_iff.mp hj).1
    have hj' : b.st.indugens[j]? = some r.actualugen := by
      rw [hsplit, List.getElem?_append_left hjlt, hj]
    have hklt := (List.getElem?_eq_some_iff.mp hk).1
    obtain rfl : k = j := (List.getElem?_inj hklt hnd).mp (hk.trans hj'.symm)
    have houts : (acc[k]?).map some = some (m r.actualugen) := by
      rw [← List.getElem?_map, hacc, List.getElem?_map, hj]
      rfl
    have hat : at1 acc spec.i1 = acc[k]? := by
      rw [hi₁, at1, if_pos (by omega)]
      congr 1
      omega
    rw [readValue, if_neg (by omega), hat, hi₂, inputValue]
    cases hget : acc[k]? with
    | none =>
      rw [hget] at houts
      cases houts
    | some outs =>
      rw [hget] at houts
      rw [← Option.some.inj houts]

/-- One UGen of the file. -/
theorem execUGen_eq (hb : TopologicalBuild g b.st) (hg : b.Allugens = some g)
    {done todo : List UGenId} {u : UGenId} (hsplit : b.st.indugens = done ++ u :: todo)
    {m : UGenId → Option (List V)} {acc : List (List V)} (hacc : acc.map some = done.map m)
    (parameters : List V) {spec : UGenSpec} (hsame : SameUGen b u spec) :
    execUGen I parameters acc spec =
      ((network I g parameters).value u m).map fun outs => acc ++ [outs] := by
  obtain ⟨ug, hug, hname, hrate, hspecial, -, houtputs, hinputs, -⟩ := hsame
  have hug' : g[u]? = some ug := by
    unfold SYNTHDef.ugen? at hug
    rwa [hg] at hug
  have heq : ug.inputs.mapM (inputValue I m) = spec.inputspec.mapM (readValue I acc) := by
    refine mapM_congr hinputs fun v hv spec' h => readValue_eq hb hsplit hacc h fun r hr => ?_
    exact hb.topo done u todo hsplit _ ⟨ug, hug', r, hr ▸ hv, rfl⟩
  show (spec.inputspec.mapM (readValue I acc)).bind _ = (ugenValue I g parameters u m).map _
  unfold ugenValue
  rw [hug', ← heq, hname, hrate, hspecial, houtputs, Int.toNat_natCast]
  show _ = ((ug.inputs.mapM (inputValue I m)).bind _).map _
  cases ug.inputs.mapM (inputValue I m) with
  | none => rfl
  | some inputs => rfl

/-- **The file runs the network**: its outputs are those that `run` leaves behind. -/
theorem exec_run (hb : TopologicalBuild g b.st) (hg : b.Allugens = some g) (parameters : List V)
    {m' : UGenId → Option (List V)} : ∀ (todo done : List UGenId) (specs : List UGenSpec)
      (m : UGenId → Option (List V)) (acc : List (List V)),
      b.st.indugens = done ++ todo → List.Forall₂ (SameUGen b) todo specs →
      acc.map some = done.map m → (network I g parameters).run todo m = some m' →
      ∃ outs, specs.foldlM (execUGen I parameters) acc = some outs ∧
        outs.map some = b.st.indugens.map m' := by
  have hnd : b.st.indugens.Nodup := hb.perm.nodup_iff.mpr List.nodup_range
  intro todo
  induction todo with
  | nil =>
    intro done specs m acc hsplit hsame hacc hrun
    cases hsame
    obtain rfl := Option.some.inj hrun
    exact ⟨acc, rfl, by rw [hacc, hsplit, List.append_nil]⟩
  | cons u todo ih =>
    intro done specs m acc hsplit hsame hacc hrun
    cases hsame with
    | cons hu hrest =>
      obtain ⟨outs, houts, hrun'⟩ := Option.bind_eq_some_iff.mp hrun
      have hfresh : u ∉ done := fun hmem =>
        List.disjoint_of_nodup_append (hsplit ▸ hnd) hmem List.mem_cons_self
      have hsplit' : b.st.indugens = (done ++ [u]) ++ todo := by
        rw [hsplit, List.append_assoc, List.singleton_append]
      have hacc' : (acc ++ [outs]).map some =
          (done ++ [u]).map (Function.update m u (some outs)) := by
        rw [List.map_append, List.map_append, hacc, List.map_singleton, List.map_singleton,
          Function.update_self]
        congr 1
        refine List.map_congr_left fun v hv => ?_
        have hne : v ≠ u := fun heq => hfresh (heq ▸ hv)
        rw [Function.update_of_ne hne]
      obtain ⟨final, hfold, hfinal⟩ := ih (done ++ [u]) _ _ (acc ++ [outs]) hsplit' hrest hacc' hrun'
      refine ⟨final, ?_, hfinal⟩
      rw [List.foldlM_cons, execUGen_eq hb hg hsplit hacc parameters hu, houts]
      exact hfold

theorem Wired.closed (h : Wired g) : Closed g := by
  rintro u v ⟨ug, hug, r, hr, rfl⟩
  obtain ⟨source, hsource, -⟩ := h u ug r hug hr
  exact (List.getElem?_eq_some_iff.mp hsource).1

/-- The solutions of the network are the meanings of the graph. -/
theorem means_iff (hb : TopologicalBuild g b.st) {parameters : List LuaNumber}
    {f : UGenId → Option (List V)} : Means I g parameters f ↔
      (network I g (parameterValues I parameters)).Solves b.st.indugens f := by
  have hmem : ∀ u, u ∈ b.st.indugens ↔ u < g.length := fun u =>
    hb.perm.mem_iff.trans List.mem_range
  constructor
  · intro h u hu
    exact h u ((hmem u).mp hu)
  · intro h u hu
    exact h u ((hmem u).mpr hu)

/-- What was read of a built SynthDef computes the meaning of its graph, which has just one. -/
theorem exec_means (hb : TopologicalBuild g b.st) (hg : b.Allugens = some g) (hwired : Wired g)
    {v : ℕ} {r : SynthRead} (hdec : Decoded b v r) :
    ∃ outs, r.exec I = some outs ∧ (∃ f, Means I g b.parameters f) ∧
      ∀ f, Means I g b.parameters f → outs.map some = b.st.indugens.map f := by
  have hnd : b.st.indugens.Nodup := hb.perm.nodup_iff.mpr List.nodup_range
  have hparameters : r.parameters.map I.const = parameterValues I b.parameters := by
    refine map_eq_of_forall₂ (hdec.parameters.imp ?_)
    intro x y hxy
    exact congrArg I.const (float32_eq hxy).symm
  obtain ⟨m, hrun⟩ := Network.run_isSome (Full g) (m := fun _ => none) hb.topo
    fun u hu f hf => value_full (I := I) hwired (parameterValues I b.parameters)
      (List.mem_range.mp (hb.perm.mem_iff.mp hu)) hf
  obtain ⟨outs, hexec, houts⟩ := exec_run hb hg _ _ [] _ _ [] rfl hdec.ugens rfl hrun
  have hmeans : Means I g b.parameters m :=
    (means_iff hb).mpr (Network.run_solves hb.topo hnd hrun)
  refine ⟨outs, ?_, ⟨m, hmeans⟩, fun f hf => ?_⟩
  · rw [SynthRead.exec, hparameters]
    exact hexec
  · rw [houts]
    exact List.map_congr_left
      (Network.Solves.unique hb.topo ((means_iff hb).mp hmeans) ((means_iff hb).mp hf))

end Exec

/-! ## `makeDefStr` -/

section MakeDefStr

variable {I} {d : SYNTHDef} {g : List UGen}

/-- The file that `makeDefStr` leaves behind is that of the built SynthDef, and is read as it. -/
theorem makeDefStr_reads {calls : List ControlCall} {sv : ServerVersion} {v : Option ℕ}
    (hready : d.Ready) (hd : d.Allugens = some g) (hg : d.AcyclicGraph)
    (hne : NonEmptyArrays calls) (hcalls : declareAll calls = .ok ⟨d.parameters, d.paramnames⟩)
    (hvalued : ∀ p ∈ d.paramnames, p.index ≠ none)
    (h₁ : 1 ≤ fileVersion sv v) (h₃ : fileVersion sv v ≤ 3)
    (hfits : d.Fits (lensFor (fileVersion sv v))) (hshort : fileVersion sv v = 3 → d.Short)
    {d' : SYNTHDef} (hd' : d.makeDefStr sv v = .ok d') :
    ∃ b str r, d' = { b with compiledStr := some str } ∧ readSCSynthString str = .ok r ∧
      Decoded b (fileVersion sv v) r ∧ TopologicalBuild g b.st ∧ b.Allugens = some g ∧
      b.parameters = d.parameters := by
  obtain ⟨b, hb, hrest⟩ := bind_ok.mp hd'
  obtain ⟨str, hstr, hret⟩ := bind_ok.mp hrest
  cases hret
  obtain ⟨b', hb', hkeep, htopo, hpool⟩ := ensureBuilt_spec hready hg hd
  obtain rfl : b = b' := Except.ok.inj (hb.symm.trans hb')
  have hall : b.Allugens = some g := by rw [hkeep]; exact hd
  have hfits' : b.Fits (lensFor (fileVersion sv v)) := by
    rw [hkeep]
    exact ⟨hfits.name, hfits.paramCount, hfits.nameCount, hfits.paramnames, hfits.graph,
      hfits.reblock, hfits.resample⟩
  have hwf : ParamsWF b.paramnames b.parameters.length := by
    rw [hkeep]
    exact declareAll_wf hne hcalls hvalued
  obtain ⟨str', r, hstr', hread, hdec⟩ := encodeDef_reads
    ⟨hall, htopo, hpool, hfits.graph g hd⟩ hfits' hwf (encodable_of_encodeDef hstr) h₁ h₃
    fun hv s hs => hshort hv b s hb hs
  obtain rfl : str = str' := Except.ok.inj (hstr.symm.trans hstr')
  exact ⟨b, str, r, rfl, hread, hdec, htopo, hall, by rw [hkeep]⟩

/-- **The file computes what the graph means.** Whatever UGens do, the graph has one meaning, and
whoever reads the file that is written and takes its UGens in order gets that meaning, UGen by
UGen, without ever missing an input. -/
theorem makeDefStr_computes {calls : List ControlCall} {sv : ServerVersion} {v : Option ℕ}
    (I : Interpretation V) (hready : d.Ready) (hd : d.Allugens = some g) (hwired : Wired g)
    (hac : Acyclic (Reads g)) (hne : NonEmptyArrays calls)
    (hcalls : declareAll calls = .ok ⟨d.parameters, d.paramnames⟩)
    (hvalued : ∀ p ∈ d.paramnames, p.index ≠ none)
    (h₁ : 1 ≤ fileVersion sv v) (h₃ : fileVersion sv v ≤ 3)
    (hfits : d.Fits (lensFor (fileVersion sv v))) (hshort : fileVersion sv v = 3 → d.Short)
    {d' : SYNTHDef} (hd' : d.makeDefStr sv v = .ok d') :
    ∃ str r outs, d'.compiledStr = some str ∧ readSCSynthString str = .ok r ∧
      r.exec I = some outs ∧ (∃ f, Means I g d.parameters f) ∧
      ∀ f, Means I g d.parameters f → outs.map some = d'.st.indugens.map f := by
  have hg : d.AcyclicGraph := by
    intro g' hg'
    obtain rfl := Option.some.inj (hd.symm.trans hg')
    exact ⟨hwired.closed, hac⟩
  obtain ⟨b, str, r, rfl, hread, hdec, htopo, hall, hparameters⟩ :=
    makeDefStr_reads hready hd hg hne hcalls hvalued h₁ h₃ hfits hshort hd'
  obtain ⟨outs, hexec, hmeans, hunique⟩ := exec_means (I := I) htopo hall hwired hdec
  rw [hparameters] at hmeans hunique
  exact ⟨str, r, outs, rfl, hread, hexec, hmeans, hunique⟩

end MakeDefStr

/-- Numbers count for one, and a UGen for one more than its inputs. -/
def sizes : Interpretation ℕ where
  const _ := 1
  ugen _ _ _ outputs _ inputs := List.replicate outputs (inputs.sum + 1)
  length_ugen _ _ _ _ _ _ := List.length_replicate

theorem sineDef_wired : Wired sineUGens := by
  intro u ug r hug hr
  have hcheck : ∀ ug ∈ sineUGens, ∀ v ∈ ug.inputs, ∀ r, v = Input.ref r →
      ∃ source, sineUGens[r.actualugen]? = some source ∧
        1 ≤ r.outputIndex ∧ r.outputIndex ≤ source.numOutputs := by
    intro ug hug v hv r hr
    subst hr
    simp only [sineUGens, List.mem_cons, List.not_mem_nil, or_false] at hug
    rcases hug with rfl | rfl | rfl | rfl <;>
      simp only [List.mem_cons, Input.ref.injEq, List.not_mem_nil, or_false, reduceCtorEq] at hv
    · subst hv
      exact ⟨_, rfl, by decide⟩
    · subst hv
      exact ⟨_, rfl, by decide⟩
    · rcases hv with rfl | rfl | rfl <;> exact ⟨_, rfl, by decide⟩
  exact hcheck ug (List.mem_of_getElem? hug) _ hr r rfl

/-- The file of the sine SynthDef computes the sizes of its UGens. -/
theorem makeDefStr_computes_sine : ∃ d' str r outs, sineDef.makeDefStr ⟨3, 15⟩ none = .ok d' ∧
    d'.compiledStr = some str ∧ readSCSynthString str = .ok r ∧ r.exec sizes = some outs ∧
    ∀ f, Means sizes sineUGens sineDef.parameters f → outs.map some = d'.st.indugens.map f := by
  have hok : (sineDef.makeDefStr ⟨3, 15⟩ none).isOk = true := by decide +kernel
  cases hd' : sineDef.makeDefStr ⟨3, 15⟩ none with
  | error e =>
    rw [hd'] at hok
    cases hok
  | ok d' =>
    have hac : Acyclic (Reads sineUGens) :=
      acyclic_of_rank id fun _ _ h => reads_lt_of_readsBefore (by decide) h
    obtain ⟨str, r, outs, hstr, hread, hexec, -, hmeans⟩ := @makeDefStr_computes ℕ sineDef
      sineUGens sineCalls ⟨3, 15⟩ none sizes (Or.inl sineDef_fresh) rfl sineDef_wired hac
      sineCalls_nonEmpty rfl (by decide) (by decide) (by decide) sineDef_fits
      (fun _ => SYNTHDef.short_of_check (by decide +kernel)) d' hd'
    exact ⟨d', str, r, outs, rfl, hstr, hread, hexec, hmeans⟩

end Lua2SC.SynthDef

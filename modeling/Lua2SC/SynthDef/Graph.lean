import Lua2SC.Codec.Number2String

/-!
# `synthdefsc.lua`: the UGen graph of a SynthDef and `build`

A UGen object is known by its place in `Allugens`, the list `UGen:new1`
appends every new UGen to. An input is a number, a UGen, or an output proxy
of one (`OutputProxy.create` keeps its source and its 1-based index; proxies
are made with `new`, not `new1`, so they are never in `Allugens`). The code
tells a proxy by `name == "OutputProxy"`; here it is a constructor of `Ref`.

`build` numbers the UGens: `findTerminals` keeps those that are nobody's
input, `doInputs` walks from each of them depth first, marking `visited` on
the way in and appending to `indugens` on the way out, and pools the numeric
inputs into `constants`; `toposortcheck` asserts that every recorded
successor comes later. `doInputs` also fills `inputs_toposort` and
`ugeninputs`, which only the unused `toposort` reads; they are left out.

The recursion of `doInputs` carries a fuel: every frame on the stack has
marked a UGen of its own, so `Allugens` bounds the depth, and running out is
an error of its own that `Build.lean` excludes.
-/

namespace Lua2SC.SynthDef

open Lua2SC.Lua

/-- A UGen object: its position in `Allugens`. -/
abbrev UGenId := ℕ

/-- An `OutputProxy` of a multi-output UGen. -/
structure Proxy where
  source : UGenId
  index : ℕ
deriving DecidableEq, Repr

/-- What `doInputs` can be called on. -/
inductive Ref where
  | ugen (u : UGenId)
  | proxy (p : Proxy)
deriving DecidableEq, Repr

/-- `actualugen`: the UGen behind a reference. -/
def Ref.actualugen : Ref → UGenId
  | .ugen u => u
  | .proxy p => p.source

/-- One entry of `inputs`. -/
inductive Input where
  | number (x : LuaNumber)
  | ref (r : Ref)
deriving DecidableEq, Repr

structure UGen where
  name : LString
  calcrate : ℤ
  specialIndex : ℤ
  isOutUGen : Bool
  inputs : List Input
  channels : List Proxy
deriving DecidableEq, Repr

/-- An entry of `paramnames`; `index` is nil until `Control:init` sets it. -/
structure ParamName where
  name : LString
  index : Option ℕ
deriving DecidableEq, Repr

/-- The setting `Reblock` leaves on the SynthDef. -/
inductive Reblock where
  | controlIndex (i : ℤ)
  | blockSize (n : ℤ)
deriving DecidableEq, Repr

/-- The setting `Resample` leaves on the SynthDef. -/
inductive Resample where
  | controlIndex (i : ℤ)
  | factor (x : LuaNumber)
deriving DecidableEq, Repr

/-- What `build` writes: on the SynthDef (`ugens`, `indugens`, `constants`)
and on the UGens themselves (`visited`, `sucesors`). -/
structure BuildState where
  visited : UGenId → Bool
  sucesors : UGenId → List UGenId
  indugens : List UGenId
  ugens : LuaTable UGenId ℕ
  constants : LuaTable LuaNumber ℕ

structure SYNTHDef where
  name : LString
  Allugens : Option (List UGen)
  parameters : List LuaNumber
  paramnames : List ParamName
  reblock : Option Reblock
  resample : Option Resample
  isBuild : Bool
  outputugens : List UGenId
  st : BuildState
  compiledStr : Option LString

/-- The errors `build` can raise. -/
inductive BuildError where
  | ipairsNil      -- `ipairs(self.Allugens)` without any UGen made
  | notUGen        -- an input that is no UGen of this SynthDef
  | badToposort    -- the assertion of `toposortcheck`
  | outOfFuel
deriving DecidableEq, Repr

/-! ## `findTerminals` -/

/-- Taking the UGens behind one UGen's inputs out of `terminals`. -/
def deleteInputs (terminals : Finset UGenId) (ug : UGen) : Finset UGenId :=
  ug.inputs.foldl (fun t v =>
    match v with
    | .number _ => t
    | .ref r => t.erase r.actualugen) terminals

/-- The UGens no other UGen has as an input, in `Allugens` order. -/
def findTerminals (Allugens : List UGen) : List UGenId :=
  let terminals := Allugens.foldl deleteInputs (Finset.range Allugens.length)
  (List.range Allugens.length).filter (· ∈ terminals)

/-! ## `doInputs` -/

namespace BuildState

/-- `actualugen.sucesors[#actualugen.sucesors+1]=sucesor`; a nil successor
leaves the list as it is. -/
def addSucesor (st : BuildState) (u : UGenId) : Option UGenId → BuildState
  | none => st
  | some s => { st with sucesors := Function.update st.sucesors u (st.sucesors u ++ [s]) }

/-- `actualugen.visited = true`. -/
def visit (st : BuildState) (u : UGenId) : BuildState :=
  { st with visited := Function.update st.visited u true }

/-- A numeric input not yet in the pool takes the next place. -/
def addConstant (st : BuildState) (x : LuaNumber) : BuildState :=
  match st.constants.lookup x with
  | some _ => st
  | none => { st with constants := st.constants.insert x (tablelength st.constants + 1) }

/-- The last two lines of `doInputs`. -/
def number (st : BuildState) (u : UGenId) : BuildState :=
  { st with
    ugens := st.ugens.insert u (st.indugens.length + 1)
    indugens := st.indugens ++ [u] }

end BuildState

/-- The body of the loop over `inputs`; `walk` is the recursive call. -/
def doInput (walk : Ref → Option UGenId → BuildState → Except BuildError BuildState)
    (actualugen : UGenId) (st : BuildState) : Input → Except BuildError BuildState
  | .number x => .ok (st.addConstant x)
  | .ref r => walk r (some actualugen) st

/-- `UGen:doInputs(syndef, sucesor)`. -/
def doInputs (Allugens : List UGen) :
    ℕ → Ref → Option UGenId → BuildState → Except BuildError BuildState
  | 0, _, _, _ => .error .outOfFuel
  | fuel + 1, ug, sucesor, st =>
    let actualugen := ug.actualugen
    let st := st.addSucesor actualugen sucesor
    if st.visited actualugen then .ok st
    else
      match Allugens[actualugen]? with
      | none => .error .notUGen
      | some self => do
        let st ← self.inputs.foldlM (doInput (doInputs Allugens fuel) actualugen)
          (st.visit actualugen)
        return st.number actualugen

/-! ## `toposortcheck` and `build` -/

/-- `order[v] = i` over `indugens`. -/
def orderOf (indugens : List UGenId) : LuaTable UGenId ℕ :=
  ofPairs (indugens.zipIdx.map fun vi => (vi.1, vi.2 + 1))

/-- `order[su] > i`; a successor without a place raises just as well. -/
def isAfter (order : LuaTable UGenId ℕ) (i : ℕ) (su : UGenId) : Bool :=
  match order.lookup su with
  | some j => decide (i < j)
  | none => false

def toposortcheck (st : BuildState) : Except BuildError Unit :=
  let order := orderOf st.indugens
  if st.indugens.zipIdx.all fun vi => (st.sucesors vi.1).all (isAfter order (vi.2 + 1)) then
    .ok ()
  else .error .badToposort

/-- The walk `build` makes over the terminals. -/
def walkTerminals (Allugens : List UGen) (terminals : List UGenId) (st : BuildState) :
    Except BuildError BuildState :=
  terminals.foldlM (fun st v => doInputs Allugens (Allugens.length + 1) (.ugen v) none st) st

/-- `SYNTHDef:build()`. -/
def SYNTHDef.build (self : SYNTHDef) : Except BuildError SYNTHDef :=
  match self.Allugens with
  | none => .error .ipairsNil
  | some Allugens => do
    let outputugens := findTerminals Allugens
    let st ← walkTerminals Allugens outputugens
      { self.st with ugens := ∅, indugens := [], constants := ∅ }
    toposortcheck st
    return { self with outputugens := outputugens, st := st, isBuild := true }

/-! ## The graph the UGens form -/

/-- `u` has `v`, or an output proxy of `v`, among its inputs. -/
def Reads (Allugens : List UGen) (u v : UGenId) : Prop :=
  ∃ ug, Allugens[u]? = some ug ∧ ∃ r, Input.ref r ∈ ug.inputs ∧ r.actualugen = v

/-- `x` is a numeric input of `u`. -/
def ReadsNumber (Allugens : List UGen) (u : UGenId) (x : LuaNumber) : Prop :=
  ∃ ug, Allugens[u]? = some ug ∧ Input.number x ∈ ug.inputs

/-- Every input that is a UGen is a UGen of this SynthDef. -/
def Closed (Allugens : List UGen) : Prop :=
  ∀ u v, Reads Allugens u v → v < Allugens.length

/-- A SynthDef as the graph function leaves it: nothing built yet. -/
structure SYNTHDef.Fresh (d : SYNTHDef) : Prop where
  isBuild : d.isBuild = false
  visited : ∀ u, d.st.visited u = false
  sucesors : ∀ u, d.st.sucesors u = []

end Lua2SC.SynthDef

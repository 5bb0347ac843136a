import Lua2SC.SynthDef.Graph
import Lua2SC.Lib.Format

/-!
# `makeDefStr`: a SynthDef as the bytes of a `.scsyndef` file

The source collects pieces with `table.insert(tout, …)` and joins them with
`table.concat`; here `tout` is the list of the pieces in the same order, each
of which may raise. In version 3 the fourth piece is a size field, written as
0 first and patched once the rest is known (`tout[sizepos] = …`).

Versions 1 and 2 differ in the width of counts and indices (`lens`), version
3 adds the size field and the reblock/resample trailer. A definition that is
not built yet is built first.
-/

namespace Lua2SC.SynthDef

open Lua2SC.Lua Lua2SC.Codec Lua2SC.Format

/-- One piece of `tout`. -/
abbrev Piece := LuaM LString

/-- `pstring(str)`: a length byte and the string. -/
def pstring (str : LString) : Piece := do
  luaAssert (str.length < 31) "string too long"
  let ret ← int2str str.length 1
  return ret ++ str

/-- `swapkeyvalue(t)`. -/
def swapkeyvalue (t : LuaTable LuaNumber ℕ) : LuaTable ℕ LuaNumber :=
  ofPairs (t.entries.map fun kv => (kv.2, kv.1))

/-- The constants in the order of their numbers, as `ipairs` visits them. -/
def constantList (t : LuaTable LuaNumber ℕ) : List LuaNumber := ipairs id (swapkeyvalue t)

def SYNTHDef.ugen? (self : SYNTHDef) (u : UGenId) : Option UGen :=
  self.Allugens.bind fun g => g[u]?

/-- A table read that the code goes on to compute with. -/
def index {α : Type} (o : Option α) : LuaM α :=
  match o with
  | some a => .ok a
  | none => .error "attempt to perform arithmetic on a nil value"

/-- The number of outputs written for a UGen. -/
def UGen.numOutputs (v : UGen) : ℕ :=
  if 0 < v.channels.length then v.channels.length
  else if v.isOutUGen then 0 else 1

/-- The input specification: constants are `-1` and a pool index, UGens their
position and an output index, all 0-based. -/
def inputSpec (self : SYNTHDef) (lens : ℕ) : Input → Piece
  | .number x => do
    let i ← index (self.st.constants.lookup x)
    concat [int2str (-1) lens, int2str (i - 1) lens]
  | .ref (.proxy p) => do
    let pos ← index (self.st.ugens.lookup p.source)
    concat [int2str (pos - 1) lens, int2str (p.index - 1) lens]
  | .ref (.ugen u) => do
    let pos ← index (self.st.ugens.lookup u)
    concat [int2str (pos - 1) lens, int2str 0 lens]

/-- The output rates: the source's rate for every channel, else the UGen's
own rate once, else nothing for an `Out`. -/
def outputSpec (self : SYNTHDef) (v : UGen) : List Piece :=
  if 0 < v.channels.length then
    v.channels.map fun p => do
      let source ← index (self.ugen? p.source)
      int2str source.calcrate 1
  else if v.isOutUGen then [] else [int2str v.calcrate 1]

/-- One UGen of the list. -/
def ugenSpec (self : SYNTHDef) (lens : ℕ) (u : UGenId) : Piece := do
  let v ← index (self.ugen? u)
  concat [
    pstring v.name,
    int2str v.calcrate 1,
    int2str v.inputs.length lens,
    int2str v.numOutputs lens,
    int2str v.specialIndex 2,
    concat (v.inputs.map (inputSpec self lens)),
    concat (outputSpec self v)]

/-- One entry of `paramnames`; its index is written 0-based. -/
def paramSpec (lens : ℕ) (p : ParamName) : Piece := do
  let i ← index p.index
  concat [pstring p.name, int2str (i - 1) lens]

/-- The reblock half of the trailer. -/
def reblockSpec : Option Reblock → List Piece
  | none => [int2str 0 4, int2str 0 4]
  | some (.controlIndex i) => [int2str (-1) 4, int2str i 4]
  | some (.blockSize n) => [int2str n 4, int2str 0 4]

/-- The resample half of the trailer. -/
def resampleSpec : Option Resample → List Piece
  | none => [float2str (.finite 1), int2str 0 4]
  | some (.controlIndex i) => [float2str (.finite (-1)), int2str i 4]
  | some (.factor x) => [float2str x, int2str 0 4]

/-- The pieces before the size field. -/
def toutHead (version : ℕ) : List Piece :=
  [.ok (ascii "SCgf"), int2str version 4, int2str 1 2]

/-- The pieces after the size field. -/
def toutBody (self : SYNTHDef) (version lens : ℕ) : List Piece :=
  [pstring self.name,
    int2str (constantList self.st.constants).length lens,
    concat ((constantList self.st.constants).map float2str),
    int2str self.parameters.length lens,
    concat (self.parameters.map float2str),
    int2str self.paramnames.length lens,
    concat (self.paramnames.map (paramSpec lens)),
    int2str self.st.indugens.length lens,
    concat (self.st.indugens.map (ugenSpec self lens)),
    int2str 0 2]
  ++ if 3 ≤ version then reblockSpec self.reblock ++ resampleSpec self.resample else []

/-- `local startPos = 10`: the bytes before the size field. -/
def startPos : ℕ := 10

/-- `sizepos`, as an index from 0. -/
def sizepos : ℕ := 3

/-- `lens`: the width of counts and indices, nil for version 0. -/
def lensOf (version : ℕ) : LuaM ℕ :=
  if version = 1 then .ok 2
  else if 1 < version then .ok 4
  else .error "attempt to perform arithmetic on a nil value"

/-- The bytes of a built definition. -/
def encodeDef (self : SYNTHDef) (version : ℕ) : LuaM LString := do
  let lens ← lensOf version
  if 2 < version then do
    let tout := toutHead version ++ int2str 0 4 :: toutBody self version lens
    let sss ← concat tout
    let size : ℤ := sss.length - startPos
    concat (tout.set sizepos (int2str size 4))
  else
    concat (toutHead version ++ toutBody self version lens)

/-- The message an error of `build` carries. -/
def BuildError.message : BuildError → String
  | .ipairsNil => "bad argument #1 to 'ipairs' (table expected, got nil)"
  | .notUGen => "not ugen"
  | .badToposort => "bad toposort"
  | .outOfFuel => "stack overflow"

/-- `if not self.isBuild then self:build() end`. -/
def SYNTHDef.ensureBuilt (self : SYNTHDef) : LuaM SYNTHDef :=
  if self.isBuild then .ok self
  else match self.build with
    | .ok self' => .ok self'
    | .error e => .error e.message

/-- The server's version, which decides the default file version. -/
structure ServerVersion where
  major : ℕ
  minor : ℕ

/-- `version = version or 3` from SuperCollider 3.15 on, else `or 2`. -/
def fileVersion (server_version : ServerVersion) (version : Option ℕ) : ℕ :=
  if server_version.major = 3 ∧ 15 ≤ server_version.minor then version.getD 3
  else version.getD 2

/-- `SYNTHDef:makeDefStr(version)`. -/
def SYNTHDef.makeDefStr (server_version : ServerVersion) (self : SYNTHDef)
    (version : Option ℕ) : LuaM SYNTHDef := do
  let version := fileVersion server_version version
  let self ← self.ensureBuilt
  let compiledStr ← encodeDef self version
  return { self with compiledStr := some compiledStr }

end Lua2SC.SynthDef

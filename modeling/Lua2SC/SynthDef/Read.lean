import Lua2SC.SynthDef.Graph
import Lua2SC.Lib.Format

/-!
# `readSCSynthStream`: the bytes of a `.scsyndef` file read back

`StrFileOpen` wraps a string as a file: `read(len)` returns the next `len`
bytes (fewer at the end) and moves `strptr`, `seek` returns `strptr`. Every
count is read with `str2int` and drives a `for i=1,n` loop, which does not
run for a negative count.

The reader shifts every index it reads by one, so the result is 1-based
again: an input with `i1 = 0` is a constant, `valor`, and any other `i1` is
the position of a UGen already read; `Bad topological sort` is raised
otherwise. The field `ugen` is the text the reader puts together for people.
-/

namespace Lua2SC.SynthDef

open Lua2SC.Lua Lua2SC.Codec Lua2SC.Format

/-- `StrFileOpen(strg)`: the string and the 1-based position in it. -/
structure StrFile where
  str : LString
  strptr : ℤ

abbrev FileReader := Reader StrFile String

/-- `pre` is behind the position, `post` in front of it. -/
def StrFile.mid (pre post : LString) : StrFile := ⟨pre ++ post, pre.length + 1⟩

/-- `inp:read(len)`. -/
def read (len : ℤ) : FileReader LString := fun f =>
  .ok (strSub f.str f.strptr (f.strptr + len - 1), { f with strptr := f.strptr + len })

/-- `inp:seek()`. -/
def seek : FileReader ℤ := fun f => .ok (f.strptr, f)

def readInt (len : ℤ) : FileReader ℤ := do
  let s ← read len
  StateT.lift (str2int s)

def readFloat : FileReader LuaNumber := do
  let s ← read 4
  StateT.lift (str2float32 s)

/-- `readpstring(f)`. -/
def readpstring : FileReader LString := do
  let len ← readInt 1
  StateT.lift (luaAssert (len ≤ 31) "pstring len ")
  read len

structure InputSpec where
  i1 : ℤ
  i2 : ℤ
  valor : Option LuaNumber
  ugen : Option LString

structure UGenSpec where
  name : LString
  calcrate : ℤ
  inputs : ℤ
  outputs : ℤ
  special : ℤ
  inputspec : List InputSpec
  outputspec : List ℤ

structure Variant where
  name : LString
  parameters : List LuaNumber

structure Resampling where
  block_size : ℤ
  block_size_index : ℤ
  factor : LuaNumber
  factor_index : ℤ

/-- The table `readSCSynthStream` returns. -/
structure SynthRead where
  version : ℤ
  size : Option ℤ
  name : LString
  constants : List LuaNumber
  parameters : List LuaNumber
  paramnames : LuaTable ℤ LString
  ugens : List UGenSpec
  variants : List Variant
  resampling : Option Resampling

/-- `t[i]` of a list read so far, for a Lua index. -/
def at1 {α : Type} (l : List α) (i : ℤ) : Option α :=
  if 1 ≤ i then l[(i - 1).toNat]? else none

/-- `tostring` of an integer. -/
def tostring (n : ℤ) : LString := ascii (toString n)

/-- The text of an input that is a UGen. -/
def inputText (Nt : LuaTable ℤ LString) (u : UGenSpec) (i2 : ℤ) : LString :=
  let text := u.name ++ ascii " rate:" ++ tostring u.calcrate
  if u.name = ascii "Control" ∨ u.name = ascii "TrigControl" then
    text ++ ascii " - " ++ (Nt.lookup (i2 + u.special)).getD (ascii "nil")
  else if u.name = ascii "UnaryOpUGen" ∨ u.name = ascii "BinaryOpUGen" then
    text ++ ascii " -special:" ++ tostring u.special
  else text

/-- What is made of the two indices of an input of the `i`-th UGen. -/
def resolveInput (Kt : List LuaNumber) (Nt : LuaTable ℤ LString) (Ut : List UGenSpec) (i : ℤ)
    (i1 i2 : ℤ) : LuaM InputSpec := do
  luaAssert (i1 < i) "Bad topological sort"
  if i1 = 0 then .ok ⟨i1, i2, at1 Kt i2, none⟩
  else match at1 Ut i1 with
    | none => .error "attempt to index a nil value"
    | some u => .ok ⟨i1, i2, none, some (inputText Nt u i2)⟩

def readInput (lenvint : ℤ) (Kt : List LuaNumber) (Nt : LuaTable ℤ LString)
    (Ut : List UGenSpec) (i : ℤ) : FileReader InputSpec := do
  let i1 ← readInt lenvint
  let i2 ← readInt lenvint
  StateT.lift (resolveInput Kt Nt Ut i (i1 + 1) (i2 + 1))

/-- The `i`-th UGen, after those of `Ut`. -/
def readUGen (lenvint : ℤ) (Kt : List LuaNumber) (Nt : LuaTable ℤ LString)
    (Ut : List UGenSpec) : FileReader UGenSpec := do
  let name ← readpstring
  let calcrate ← readInt 1
  let inputs ← readInt lenvint
  let outputs ← readInt lenvint
  let special ← readInt 2
  let inputspec ← times (readInput lenvint Kt Nt Ut (Ut.length + 1)) inputs.toNat
  let outputspec ← times (readInt 1) outputs.toNat
  return ⟨name, calcrate, inputs, outputs, special, inputspec, outputspec⟩

/-- The loop over the UGens; each sees those before it. -/
def readUGens (lenvint : ℤ) (Kt : List LuaNumber) (Nt : LuaTable ℤ LString) :
    ℕ → List UGenSpec → FileReader (List UGenSpec)
  | 0, Ut => pure Ut
  | n + 1, Ut => do
    let u ← readUGen lenvint Kt Nt Ut
    readUGens lenvint Kt Nt n (Ut ++ [u])

/-- One pair of `Nt[index] = cad`. -/
def readParamName (lenvint : ℤ) : FileReader (ℤ × LString) := do
  let cad ← readpstring
  let i ← readInt lenvint
  return (i + 1, cad)

def readVariant (P : ℕ) : FileReader Variant := do
  let name ← readpstring
  let parameters ← times readFloat P
  return ⟨name, parameters⟩

def readResampling : FileReader Resampling := do
  let block_size ← readInt 4
  let block_size_index ← readInt 4
  let factor ← readFloat
  let factor_index ← readInt 4
  return ⟨block_size, block_size_index + 1, factor, factor_index + 1⟩

/-- Everything between the size field and the end. -/
def readBody (version lenvint : ℤ) (size : Option ℤ) : FileReader SynthRead := do
  let name ← readpstring
  let K ← readInt lenvint
  let Kt ← times readFloat K.toNat
  let P ← readInt lenvint
  let Pt ← times readFloat P.toNat
  let N ← readInt lenvint
  let names ← times (readParamName lenvint) N.toNat
  let U ← readInt lenvint
  let Ut ← readUGens lenvint Kt (ofPairs names) U.toNat []
  let num_variants ← readInt 2
  let variants ← times (readVariant P.toNat) num_variants.toNat
  let resampling ← onlyIf (version = 3) readResampling
  return ⟨version, size, name, Kt, Pt, ofPairs names, Ut, variants, resampling⟩

/-- The head of the file, up to the number of definitions: the version. -/
def readHead : FileReader ℤ := do
  let buff ← read 4
  StateT.lift (luaAssert (buff = ascii "SCgf") "assertion failed!")
  let version ← readInt 4
  StateT.lift (luaAssert (2 < version → version = 3) "assertion failed!")
  let numdefs ← readInt 2
  StateT.lift (luaAssert (numdefs = 1) "El numero de definiciones no es 1")
  return version

/-- `readSCSynthStream(inp)`. -/
def readSCSynthStream : FileReader SynthRead := do
  let version ← readHead
  let lenvint : ℤ := if 1 < version then 4 else 2
  let inipos ← seek
  let size ← onlyIf (version = 3) (readInt lenvint)
  let res ← readBody version lenvint size
  let endpos ← seek
  StateT.lift (luaAssert (version = 3 → size = some (endpos - inipos)) "assertion failed!")
  return res

/-- `readSCSynthString(defstring)`. -/
def readSCSynthString (defstring : LString) : LuaM SynthRead :=
  (readSCSynthStream ⟨defstring, 1⟩).map (·.1)

end Lua2SC.SynthDef

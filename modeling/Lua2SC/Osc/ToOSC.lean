import Lua2SC.Osc.FromOSC
import Lua2SC.Osc.Outbound

/-!
# `osclua.cpp`: `toOSC`

A table that starts with a number is a bundle, one that starts with a string a
message. "Number" is `lua_isnumber`, so a string that Lua reads as a number
counts as one, and "string" is `lua_isstring`, true of numbers too. Of the
arguments, booleans, strings and numbers choose their wire type themselves (a
whole number goes as an `int32`, any other as a `double`), and a table names it.

What C leaves open is collected in `Platform`: the casts from `double` to an
integer type, which are only defined on values in range, and what follows the
512 bytes that `strncpy` fills without a NUL. Lua's own conversions between
numbers and strings are there too. Nothing is assumed of any of them beyond
what the types say.
-/

namespace Lua2SC.Osc

open Lua2SC.Lua Lua2SC.Bytes Lua2SC.Ieee

/-- A cast from `double` to the integers from `lo` up to `hi`: exact where the
integer part fits, and some value of the type elsewhere. -/
structure Cast (lo hi : ℤ) where
  toFun : Double → ℤ
  mem : ∀ x, lo ≤ toFun x ∧ toFun x < hi
  exact : ∀ x n, x.trunc = some n → lo ≤ n → n < hi → toFun x = n

structure Platform where
  /-- The number a string stands for, `lua_isnumber` and `lua_tonumber`. -/
  str2number : LString → Option Double
  /-- `lua_tostring` of a number. -/
  number2str : Double → LString
  int32 : Cast (-2 ^ 31) (2 ^ 31)
  char : Cast (-2 ^ 7) (2 ^ 7)
  int64 : Cast (-2 ^ 63) (2 ^ 63)
  uint64 : Cast 0 (2 ^ 64)
  /-- What stands behind a full buffer. -/
  overread : LString

/-- The cast that gives the least value for everything that does not fit. -/
def Cast.least (lo hi : ℤ) (h : lo < hi) : Cast lo hi where
  toFun x :=
    match x.trunc with
    | some n => if lo ≤ n ∧ n < hi then n else lo
    | none => lo
  mem x := by
    split
    · split
      · assumption
      · exact ⟨le_refl lo, h⟩
    · exact ⟨le_refl lo, h⟩
  exact x n hn hlo hhi := by rw [hn]; exact if_pos ⟨hlo, hhi⟩

/-- A platform with such casts, and no numerals. -/
def Platform.least : Platform where
  str2number _ := none
  number2str _ := []
  int32 := Cast.least _ _ (by decide)
  char := Cast.least _ _ (by decide)
  int64 := Cast.least _ _ (by decide)
  uint64 := Cast.least _ _ (by decide)
  overread := []

variable (P : Platform)

/-! ## Lua values -/

/-- `lua_rawgeti(state, -1, i + 1)`. -/
def entry (xs : List Value) (i : ℕ) : Value := xs.getD i .nil

/-- `lua_isnumber` and `lua_tonumber`. -/
def toNumber : Value → Option Double
  | .number x => some x
  | .string s => P.str2number s
  | _ => none

/-- `lua_isstring` and `lua_tostring`. -/
def toStr : Value → Option LString
  | .number x => some (P.number2str x)
  | .string s => some s
  | _ => none

/-- A string as C sees it, up to its first NUL. -/
def cstr (s : LString) : LString := s.takeWhile (· ≠ 0)

/-- The text of a string in an error message. -/
def text (s : LString) : String := String.ofList (s.map fun b => Char.ofNat b.toNat)

/-! ## Arguments -/

def int32Word (n : ℤ) : BitVec 32 := BitVec.ofInt 32 n

def floatWord (x : Double) : BitVec 32 := BitVec.ofNat 32 (x.convert Ieee.single).toBits

def doubleLong (x : Double) : BitVec 64 := BitVec.ofNat 64 x.toBits

/-- A number under a type of four bytes: the casts in `pushSpecial`. Colours and
MIDI messages go through `int`. -/
def numberWord (x : Double) : WordTag → BitVec 32
  | .int32 => int32Word (P.int32.toFun x)
  | .float => floatWord x
  | .char => int32Word (P.char.toFun x)
  | .rgbaColor => int32Word (P.int32.toFun x)
  | .midiMessage => int32Word (P.int32.toFun x)

/-- A number under a type of eight bytes. -/
def numberLong (x : Double) : LongTag → BitVec 64
  | .int64 => BitVec.ofInt 64 (P.int64.toFun x)
  | .timeTag => BitVec.ofInt 64 (P.uint64.toFun x)
  | .double => doubleLong x

/-- `str[0]` of `char str[2]` after `strncpy`, as a `char`. -/
def firstChar (s : LString) : BitVec 32 := ((cstr s).headD 0).toBitVec.signExtend 32

def boolFlag (b : Bool) : FlagTag := if b then .trueTag else .falseTag

/-- `bad_type`. -/
def badType (typenam : LString) : Cpp Arg :=
  luaL_error ("luaOsc Error: bad type for second element for OSC type " ++ text typenam ++ "\n")

/-- The types that take a number. -/
def numberArg (typenam : LString) (v : Value) (f : Double → Arg) : Cpp Arg :=
  match toNumber P v with
  | some x => .ok (f x)
  | none => badType typenam

/-- The types that take a string. -/
def stringArg (typenam : LString) (v : Value) (f : LString → Arg) : Cpp Arg :=
  match toStr P v with
  | some s => .ok (f s)
  | none => badType typenam

/-- `"char"` takes either. -/
def charArg (typenam : LString) (v : Value) : Cpp Arg :=
  match toNumber P v with
  | some x => .ok (.word .char (numberWord P x .char))
  | none => stringArg P typenam v fun s => .word .char (firstChar s)

/-- `"boolean"` takes a boolean. -/
def booleanArg (typenam : LString) : Value → Cpp Arg
  | .boolean b => .ok (.flag (boolFlag b))
  | _ => badType typenam

/-- What the type name says to do with the value. -/
def typedArg (typenam : LString) (v : Value) : Cpp Arg :=
  if typenam = ascii "float" then
    numberArg P typenam v fun x => .word .float (numberWord P x .float)
  else if typenam = ascii "double" then
    numberArg P typenam v fun x => .long .double (numberLong P x .double)
  else if typenam = ascii "string" then stringArg P typenam v fun s => .str .string (cstr s)
  else if typenam = ascii "symbol" then stringArg P typenam v fun s => .str .symbol (cstr s)
  else if typenam = ascii "blob" then stringArg P typenam v fun s => .blob s
  else if typenam = ascii "infinity" then .ok (.flag .infinitum)
  else if typenam = ascii "nil" then .ok (.flag .nilTag)
  else if typenam = ascii "rgbacolor" then
    numberArg P typenam v fun x => .word .rgbaColor (numberWord P x .rgbaColor)
  else if typenam = ascii "int32" then
    numberArg P typenam v fun x => .word .int32 (numberWord P x .int32)
  else if typenam = ascii "char" then charArg P typenam v
  else if typenam = ascii "int64" then
    numberArg P typenam v fun x => .long .int64 (numberLong P x .int64)
  else if typenam = ascii "midi" then
    numberArg P typenam v fun x => .word .midiMessage (numberWord P x .midiMessage)
  else if typenam = ascii "boolean" then booleanArg typenam v
  else if typenam = ascii "timetag" then
    numberArg P typenam v fun x => .long .timeTag (numberLong P x .timeTag)
  else if typenam = ascii "[" then .ok (.array .arrayBegin)
  else if typenam = ascii "]" then .ok (.array .arrayEnd)
  else luaL_error ("luaOsc Error: Unknown type " ++ text typenam ++ "\n")

/-- `pushSpecial`: the argument that it streams. -/
def specialArg (xs : List Value) : Cpp Arg :=
  match toStr P (entry xs 0) with
  | none => luaL_error "Special tables must have a type tag as the first element\n"
  | some typenam => typedArg P (cstr typenam) (entry xs 1)

/-- The `switch` of `pushValuesLua`; a nil ends the loop before it gets here. -/
def valueArg : Value → Cpp Arg
  | .boolean b => .ok (.flag (boolFlag b))
  | .number x =>
    if x.isWhole then .ok (.word .int32 (int32Word (P.int32.toFun x)))
    else .ok (.long .double (doubleLong x))
  | .string s => .ok (.str .string (cstr s))
  | .table xs => specialArg P xs
  | _ =>
    luaL_error
      "Invalid entry in an OSC packet. Must be string, boolean, special table or number.\n"

/-- The loop of `pushValuesLua`, up to the first nil. -/
def pushValues : List Value → OutboundPacketStream → Cpp OutboundPacketStream
  | [], p => .ok p
  | .nil :: _, p => .ok p
  | v :: vs, p => do
    let a ← valueArg P v
    let p ← p.push a
    pushValues vs p

/-- `pushValuesLua`. -/
def pushValuesLua (v : Value) (p : OutboundPacketStream) : Cpp OutboundPacketStream :=
  match v with
  | .table vs => pushValues P vs p
  | _ => luaL_error "Invalid entry in an OSC packet. Second item must be a table.\n"

/-! ## Messages and bundles -/

/-- `strncpy(addr, …, 512)`, as `BeginMessage` reads it. -/
def addrBuffer (s : LString) : LString :=
  if (cstr s).length < 512 then cstr s else (cstr s).take 512 ++ cstr P.overread

/-- `toOSCMessage`, on a table `{address, values}`. -/
def toOSCMessage (address : LString) (values : Value) (p : OutboundPacketStream) :
    Cpp OutboundPacketStream := do
  let p ← p.beginMessage (addrBuffer P address)
  let p ← pushValuesLua P values p
  p.endMessage

/-- `toOSCBundle`, with the loop over the elements as `body`. -/
def toOSCBundle (tag : Double) (body : OutboundPacketStream → Cpp OutboundPacketStream)
    (p : OutboundPacketStream) : Cpp OutboundPacketStream := do
  let p ← p.beginBundle (BitVec.ofInt 64 (P.uint64.toFun tag))
  let p ← body p
  p.endBundle

/-- What a table that starts with `first` is taken for. -/
def toOSCTable (first second : Value) (err : String)
    (body : OutboundPacketStream → Cpp OutboundPacketStream) (p : OutboundPacketStream) :
    Cpp OutboundPacketStream :=
  match toNumber P first with
  | some tag => toOSCBundle P tag body p
  | none =>
    match toStr P first with
    | some address => toOSCMessage P address second p
    | none => luaL_error err

/-- The error for a nested table. -/
def nestedStart : String :=
  "Start of a nested table must be an address (for messages) or a timetag (for bundles)\n"

mutual

/-- One nested table; whether there was one. -/
def toOSCElement : Value → OutboundPacketStream → Cpp (OutboundPacketStream × Bool)
  | .table [], _ => luaL_error nestedStart
  | .table (first :: xs), p => do
    let p ← toOSCTable P first (entry xs 0) nestedStart (toOSCElements xs) p
    return (p, true)
  | _, p => .ok (p, false)

/-- The loop of `toOSCBundle`, up to the first entry that is no table. -/
def toOSCElements : List Value → OutboundPacketStream → Cpp OutboundPacketStream
  | [], p => .ok p
  | v :: vs, p => do
    let (p, going) ← toOSCElement v p
    if going then toOSCElements vs p else .ok p

end

/-- The error for the table given. -/
def topStart : String :=
  "first element of toOSC must be a time (for bundles) or an address (for messages)"

/-- `toOSCLua`. -/
def toOSC : Value → Cpp LString
  | .table xs => do
    let p ← catchingAll (fun what => "osclua error: " ++ what ++ "\n")
      (toOSCTable P (entry xs 0) (entry xs 1) topStart (toOSCElements P xs.tail)
        OutboundPacketStream.empty)
    return p.data
  | _ => luaL_error "Non-table argument to toOSC!"

end Lua2SC.Osc

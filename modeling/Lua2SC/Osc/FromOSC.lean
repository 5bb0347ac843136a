import Lua2SC.Osc.Received
import Lua2SC.Lib.Ieee

/-!
# `osclua.cpp`: `fromOSC`

A packet becomes a table: a message its address and the table of its arguments,
a bundle its time tag and its elements. In typed mode every argument is a table
of its type name and its value. Lua numbers are doubles, so every integer and
every `float` on the wire is converted to one.

Three places construct oscpack's objects, and each names the exceptions it
expects on its own: `fromOSC` catches what `ReceivedPacket` throws, the
`fromOSCMessage` of a whole packet what `ReceivedMessage` throws; the
`fromOSCMessage` of a bundle element and `fromOSCBundle` catch nothing. The
recursion over nested bundles carries a fuel: an element is shorter than the
bundle it is in.
-/

namespace Lua2SC.Osc

open Lua2SC.Lua Lua2SC.Bytes Lua2SC.Ieee

/-- A Lua number. -/
abbrev Double := Datum Ieee.double

/-- A Lua value as the interface sees it: of a table only the entries
`1, 2, …` are read or written; `other` is what OSC has no place for. -/
inductive Value where
  | nil
  | boolean (b : Bool)
  | number (x : Double)
  | string (s : LString)
  | table (xs : List Value)
  | other
deriving Repr

/-! ## Arguments -/

/-- `typestr`. -/
def TypeTag.typeName : TypeTag → LString
  | .word .int32 => ascii "int32"
  | .word .float => ascii "float"
  | .word .char => ascii "char"
  | .word .rgbaColor => ascii "rgbacolor"
  | .word .midiMessage => ascii "midi"
  | .long .int64 => ascii "int64"
  | .long .timeTag => ascii "timetag"
  | .long .double => ascii "double"
  | .flag .trueTag => ascii "boolean"
  | .flag .falseTag => ascii "boolean"
  | .flag .nilTag => ascii "nil"
  | .flag .infinitum => ascii "infinity"
  | .array .arrayBegin => ascii "["
  | .array .arrayEnd => ascii "]"
  | .str .string => ascii "string"
  | .str .symbol => ascii "symbol"
  | .blob => ascii "blob"

def number (n : ℤ) : Value := .number (Datum.ofInt Ieee.double n)

/-- What is pushed for a tag without data. -/
def flagValue : FlagTag → Value
  | .trueTag => .boolean true
  | .falseTag => .boolean false
  | .nilTag => .string (ascii "nil")
  | .infinitum => .number (Datum.infinity Ieee.double false)

/-- What is pushed for an array bracket: its own name. -/
def arrayValue : ArrayTag → Value
  | .arrayBegin => .string (ascii "[")
  | .arrayEnd => .string (ascii "]")

/-- A four-byte word as its type reads it. -/
def wordValue (w : BitVec 32) : WordTag → Value
  | .int32 => number w.toInt
  | .float => .number ((Datum.ofBits Ieee.single w.toNat).convert Ieee.double)
  | .char => number (w.setWidth 8).toInt
  | .rgbaColor => number w.toNat
  | .midiMessage => number w.toNat

/-- An eight-byte word as its type reads it. -/
def longValue (w : BitVec 64) : LongTag → Value
  | .int64 => number w.toInt
  | .timeTag => number w.toNat
  | .double => .number (Datum.ofBits Ieee.double w.toNat)

/-- The `switch` of `parseOSCMessage`: the value of one argument. -/
def argumentValue (mem : Memory) (stop : ℕ) (arg : ReceivedMessageArgument) (t : TypeTag) :
    Cpp Value :=
  match t with
  | .flag t => .ok (flagValue t)
  | .array t => .ok (arrayValue t)
  | .word t => do
    let w ← arg.asWord mem t
    return wordValue w t
  | .long t => do
    let w ← arg.asLong mem t
    return longValue w t
  | .str t => do
    let s ← arg.asStr mem stop t
    return .string s
  | .blob => do
    let b ← arg.asBlob mem
    return .string b

/-- `{type, value}` in typed mode, the value alone otherwise. -/
def typed (fulltype : Bool) (t : TypeTag) (v : Value) : Value :=
  if fulltype then .table [.string t.typeName, v] else v

/-- One pass of the loop of `parseOSCMessage`. -/
def pushArgument (mem : Memory) (stop : ℕ) (fulltype : Bool) (arg : ReceivedMessageArgument) :
    Cpp Value :=
  match TypeTag.ofByte (mem arg.typeTagPtr) with
  | none => luaL_error "Invalid tag  in an fromOSC packet.\n"
  | some t => do
    let v ← argumentValue mem stop arg t
    return typed fulltype t v

/-- `while(arg!=m.ArgumentsEnd()) { …; arg++; }`. -/
def pushArguments (mem : Memory) (stop : ℕ) (fulltype : Bool) (typeTagsEnd : ℕ) :
    ℕ → ReceivedMessageArgument → Cpp (List Value)
  | 0, _ => .ok []
  | fuel + 1, arg =>
    if arg.typeTagPtr = typeTagsEnd then .ok []
    else do
      let v ← pushArgument mem stop fulltype arg
      let vs ← pushArguments mem stop fulltype typeTagsEnd fuel (arg.advance mem stop)
      return v :: vs

/-- The arguments of a message that has any. -/
def parseArguments (mem : Memory) (stop : ℕ) (fulltype : Bool) : Option Arguments → Cpp (List Value)
  | none => .ok []
  | some args =>
    pushArguments mem stop fulltype args.typeTagsEnd (args.typeTagsEnd - args.typeTagsBegin)
      ⟨args.typeTagsBegin, args.arguments⟩

/-- `parseOSCMessage`. -/
def parseOSCMessage (mem : Memory) (stop : ℕ) (fulltype : Bool) (m : ReceivedMessage) :
    Cpp Value := do
  let args ← parseArguments mem stop fulltype m.args
  return .table [.string (cstring mem stop m.addressPattern), .table args]

/-! ## Packets -/

/-- `fromOSCMessage(state, const osc::ReceivedBundleElement &p, fulltype)`. -/
def fromOSCMessage (mem : Memory) (fulltype : Bool) (e : Element) : Cpp Value := do
  let m ← ReceivedMessage.init mem e
  parseOSCMessage mem e.stop fulltype m

/-- `fromOSCMessage(state, osc::ReceivedPacket &p, fulltype)`. -/
def fromOSCMessagePacket (mem : Memory) (fulltype : Bool) (e : Element) : Cpp Value :=
  catching .malformedMessage (fun what => "osclua error: " ++ what ++ "\n")
    (fromOSCMessage mem fulltype e)

/-- `fromOSCBundle`, with the loop of `fromOSCParseArgs` in it. -/
def fromOSCBundle (mem : Memory) (fulltype : Bool) : ℕ → Element → Cpp Value
  | 0, _ => .ok (.table [])
  | fuel + 1, e => do
    ReceivedBundle.init mem e
    let vs ← (elements mem e.stop e.stop (e.contents + 16)).mapM fun arg =>
      if arg.isBundle mem then fromOSCBundle mem fulltype fuel arg
      else fromOSCMessage mem fulltype arg
    return .table (number (longAt mem (e.contents + 8)).toNat :: vs)

/-- `int len = lua_strlen(state, -1)`. -/
def lenInt (msg : LString) : ℤ := Int.bmod msg.length (2 ^ 32)

/-- A checked packet is read as a bundle or as a message. -/
def fromOSCPacket (mem : Memory) (fulltype : Bool) (len : ℤ) : Cpp Value := do
  let size ← validateSize len
  if Element.isBundle mem ⟨0, size⟩ then fromOSCBundle mem fulltype (size.toNat + 1) ⟨0, size⟩
  else fromOSCMessagePacket mem fulltype ⟨0, size⟩

/-- `fromOSCLua` on a string argument; `beyond` is the memory behind it. -/
def fromOSC (msg : LString) (beyond : Memory) (fulltype : Bool) : Cpp Value :=
  catching .malformedPacket (fun what => "osclua error in ReceivedPacket: " ++ what ++ "\n")
    (fromOSCPacket (ofBytes msg beyond) fulltype (lenInt msg))

end Lua2SC.Osc

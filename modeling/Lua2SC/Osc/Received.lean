import Lua2SC.Osc.Exception
import Lua2SC.Osc.Packet

/-!
# `OscReceivedElements.cpp`: packets as oscpack reads them

`ReceivedPacket`, `ReceivedBundleElement`, `ReceivedMessage` and
`ReceivedBundle` are pointers into the received bytes; here they are positions
in a memory. What stands behind the packet is part of that memory, since
`ReceivedMessage::Init` does read it: for a blob that does not fit it builds a
`MalformedMessageException` and forgets to throw it.

The constructors check and throw; the accessors (`As…`) trust what was checked.
Scans carry the room they have as fuel.
-/

namespace Lua2SC.Osc

open Lua2SC.Lua Lua2SC.Bytes

/-! ## Sizes and strings -/

/-- Where a packet or an element lies, and its size as an `int32`. -/
structure Element where
  contents : ℕ
  size : ℤ
deriving DecidableEq, Repr

/-- `OSC_BUNDLE_ELEMENT_SIZE_MAX`. -/
def elementSizeMax : ℤ := 0x7FFFFFFC

def isValidElementSizeValue (x : ℤ) : Bool := decide (0 ≤ x ∧ x ≤ elementSizeMax)

def isMultipleOf4 (x : ℤ) : Bool := decide (x % 4 = 0)

/-- `ReceivedPacket::ValidateSize`. -/
def validateSize (size : ℤ) : Cpp ℤ :=
  if !isValidElementSizeValue size then throwEx .malformedPacket "invalid packet size"
  else if size = 0 then throwEx .malformedPacket "zero length elements not permitted"
  else if !isMultipleOf4 size then
    throwEx .malformedPacket "element size must be multiple of four"
  else .ok size

/-- One past the last byte. -/
def Element.stop (e : Element) : ℕ := e.contents + e.size.toNat

def Element.isBundle (mem : Memory) (e : Element) : Bool :=
  decide (0 < e.size) && mem e.contents == chr '#'

/-- `while( p < end && *p ) p += 4`. -/
def skipGroups (mem : Memory) (stop : ℕ) : ℕ → ℕ → ℕ
  | 0, p => p
  | fuel + 1, p => if p < stop ∧ mem p ≠ 0 then skipGroups mem stop fuel (p + 4) else p

/-- `FindStr4End(p, end)`. -/
def findStr4End (mem : Memory) (p stop : ℕ) : Option ℕ :=
  if stop ≤ p then none
  else if mem p = 0 then some (p + 4)
  else
    let q := skipGroups mem (stop - 1) stop (p + 3)
    if mem q ≠ 0 then none else some (q + 1)

/-- `while( *p ) p += 4`, for a string that is known to end before `stop`. -/
def skipGroupsUnchecked (mem : Memory) : ℕ → ℕ → ℕ
  | 0, p => p
  | fuel + 1, p => if mem p ≠ 0 then skipGroupsUnchecked mem fuel (p + 4) else p

/-- `FindStr4End(p)`. -/
def findStr4EndUnchecked (mem : Memory) (stop p : ℕ) : ℕ :=
  if mem p = 0 then p + 4 else skipGroupsUnchecked mem stop (p + 3) + 1

/-- `ToInt32`, `ToUInt32`: the word, read signed or unsigned by the caller. -/
def wordAt (mem : Memory) (p : ℕ) : BitVec 32 := BitVec.ofNat 32 (beNat (slice mem p 4))

/-- `ToInt64`, `ToUInt64`. -/
def longAt (mem : Memory) (p : ℕ) : BitVec 64 := BitVec.ofNat 64 (beNat (slice mem p 8))

/-- `RoundUp4_UInt32`: the sum wraps. -/
def roundUp4UInt32 (x : BitVec 32) : ℕ := (x.toNat + 3) % 2 ^ 32 / 4 * 4

/-! ## Messages -/

/-- `typeTagsBegin_`, `typeTagsEnd_` and `arguments_`. -/
structure Arguments where
  typeTagsBegin : ℕ
  typeTagsEnd : ℕ
  arguments : ℕ
deriving DecidableEq, Repr

/-- A `ReceivedMessage`; without arguments its pointers are 0. -/
structure ReceivedMessage where
  addressPattern : ℕ
  args : Option Arguments
deriving DecidableEq, Repr

/-- Data of a fixed size: what `Init` asks of it. -/
def checkRoom (stop argument n : ℕ) : Cpp ℕ :=
  if argument = stop then throwEx .malformedMessage "arguments exceed message size"
  else if stop < argument + n then throwEx .malformedMessage "arguments exceed message size"
  else .ok (argument + n)

/-- One pass of the loop in `ReceivedMessage::Init`: where the data of the
next argument starts, and the array level. -/
def checkArgument (mem : Memory) (stop : ℕ) (typeTag : UInt8) (argument : ℕ)
    (arrayLevel : BitVec 32) : Cpp (ℕ × BitVec 32) :=
  match TypeTag.ofByte typeTag with
  | some (.flag _) => .ok (argument, arrayLevel)
  | some (.array .arrayBegin) => .ok (argument, arrayLevel + 1)
  | some (.array .arrayEnd) => .ok (argument, arrayLevel - 1)
  | some (.word _) => do
    let argument ← checkRoom stop argument 4
    return (argument, arrayLevel)
  | some (.long _) => do
    let argument ← checkRoom stop argument 8
    return (argument, arrayLevel)
  | some (.str _) =>
    if argument = stop then throwEx .malformedMessage "arguments exceed message size"
    else
      match findStr4End mem argument stop with
      | none => throwEx .malformedMessage "unterminated string argument"
      | some argument => .ok (argument, arrayLevel)
  | some .blob =>
    -- both size checks build the exception without throwing it
    .ok (argument + 4 + roundUp4UInt32 (wordAt mem argument), arrayLevel)
  | none => throwEx .malformedMessage "unknown type tag"

/-- `do { … } while( *++typeTag != '\0' )`: the end of the tags and the final level. -/
def checkArguments (mem : Memory) (stop : ℕ) : ℕ → ℕ → ℕ → BitVec 32 → Cpp (ℕ × BitVec 32)
  | 0, typeTag, _, arrayLevel => .ok (typeTag, arrayLevel)
  | fuel + 1, typeTag, argument, arrayLevel => do
    let (argument, arrayLevel) ← checkArgument mem stop (mem typeTag) argument arrayLevel
    if mem (typeTag + 1) = 0 then .ok (typeTag + 1, arrayLevel)
    else checkArguments mem stop fuel (typeTag + 1) argument arrayLevel

/-- The part of `Init` behind the type tag string's comma. -/
def initArguments (mem : Memory) (stop typeTags : ℕ) : Cpp Arguments :=
  match findStr4End mem typeTags stop with
  | none =>
    throwEx .malformedMessage "type tags were not terminated before end of message"
  | some arguments => do
    let (typeTagsEnd, arrayLevel) ←
      checkArguments mem stop (stop - typeTags) (typeTags + 1) arguments 0
    if arrayLevel ≠ 0 then
      throwEx .malformedMessage
        "array was not terminated before end of message (expected ']' end of array tag)"
    else return ⟨typeTags + 1, typeTagsEnd, arguments⟩

/-- `ReceivedMessage::Init`, from the address on. -/
def ReceivedMessage.initContents (mem : Memory) (e : Element) : Cpp ReceivedMessage :=
  match findStr4End mem e.contents e.stop with
  | none => throwEx .malformedMessage "unterminated address pattern"
  | some typeTags =>
    if typeTags = e.stop then .ok ⟨e.contents, none⟩
    else if mem typeTags ≠ chr ',' then throwEx .malformedMessage "type tags not present"
    else if mem (typeTags + 1) = 0 then .ok ⟨e.contents, none⟩
    else do
      let args ← initArguments mem e.stop typeTags
      return ⟨e.contents, some args⟩

/-- `ReceivedMessage::Init`. -/
def ReceivedMessage.init (mem : Memory) (e : Element) : Cpp ReceivedMessage :=
  if !isValidElementSizeValue e.size then throwEx .malformedMessage "invalid message size"
  else if e.size = 0 then throwEx .malformedMessage "zero length messages not permitted"
  else if !isMultipleOf4 e.size then
    throwEx .malformedMessage "message size must be multiple of four"
  else initContents mem e

/-- A `ReceivedMessageArgument`. -/
structure ReceivedMessageArgument where
  typeTagPtr : ℕ
  argumentPtr : ℕ
deriving DecidableEq, Repr

namespace ReceivedMessageArgument

variable (mem : Memory) (self : ReceivedMessageArgument)

/-- The check every `As…` makes of the tag before it reads. -/
def checkTag {α : Type} (t : TypeTag) (a : α) : Cpp α :=
  if mem self.typeTagPtr = t.byte then .ok a
  else throwEx .wrongArgumentType "wrong argument type"

/-- `AsInt32`, `AsFloat`, `AsRgbaColor`, `AsMidiMessage`, and `AsChar` before its cast. -/
def asWord (t : WordTag) : Cpp (BitVec 32) := checkTag mem self (.word t) (wordAt mem self.argumentPtr)

/-- `AsInt64`, `AsTimeTag`, `AsDouble`. -/
def asLong (t : LongTag) : Cpp (BitVec 64) := checkTag mem self (.long t) (longAt mem self.argumentPtr)

/-- `AsString`, `AsSymbol`. -/
def asStr (stop : ℕ) (t : StringTag) : Cpp LString :=
  checkTag mem self (.str t) (cstring mem stop self.argumentPtr)

/-- `AsBlob`. -/
def asBlob : Cpp LString := do
  let size ← checkTag mem self .blob (wordAt mem self.argumentPtr).toInt
  if !isValidElementSizeValue size then throwEx .malformedMessage "invalid blob size"
  else return slice mem (self.argumentPtr + 4) size.toNat

/-- `ReceivedMessageArgumentIterator::Advance`. -/
def advance (stop : ℕ) : ReceivedMessageArgument :=
  match TypeTag.ofByte (mem self.typeTagPtr) with
  | some (.flag _) => ⟨self.typeTagPtr + 1, self.argumentPtr⟩
  | some (.array _) => ⟨self.typeTagPtr + 1, self.argumentPtr⟩
  | some (.word _) => ⟨self.typeTagPtr + 1, self.argumentPtr + 4⟩
  | some (.long _) => ⟨self.typeTagPtr + 1, self.argumentPtr + 8⟩
  | some (.str _) => ⟨self.typeTagPtr + 1, findStr4EndUnchecked mem stop self.argumentPtr⟩
  | some .blob =>
    ⟨self.typeTagPtr + 1, self.argumentPtr + 4 + roundUp4UInt32 (wordAt mem self.argumentPtr)⟩
  | none => self

end ReceivedMessageArgument

/-! ## Bundles -/

/-- The loop of `ReceivedBundle::Init` over the element sizes. -/
def checkElements (mem : Memory) (stop : ℕ) : ℕ → ℕ → Cpp Unit
  | 0, _ => .ok ()
  | fuel + 1, p =>
    if p < stop then
      if stop < p + 4 then throwEx .malformedBundle "packet too short for elementSize"
      else if (wordAt mem p).toNat % 4 ≠ 0 then
        throwEx .malformedBundle "bundle element size must be multiple of four"
      else if stop < p + 4 + (wordAt mem p).toNat then
        throwEx .malformedBundle "packet too short for bundle element"
      else checkElements mem stop fuel (p + 4 + (wordAt mem p).toNat)
    else if p ≠ stop then throwEx .malformedBundle "bundle contents "
    else .ok ()

/-- `ReceivedBundle::Init`; the time tag is at `contents + 8`. -/
def ReceivedBundle.init (mem : Memory) (e : Element) : Cpp Unit :=
  if !isValidElementSizeValue e.size then throwEx .malformedBundle "invalid bundle size"
  else if e.size < 16 then throwEx .malformedBundle "packet too short for bundle"
  else if !isMultipleOf4 e.size then
    throwEx .malformedBundle "bundle size must be multiple of four"
  else if slice mem e.contents 8 ≠ bundleHeader then
    throwEx .malformedBundle "bad bundle address pattern"
  else checkElements mem e.stop e.stop (e.contents + 16)

/-- `ElementsBegin()` to `ElementsEnd()`. -/
def elements (mem : Memory) (stop : ℕ) : ℕ → ℕ → List Element
  | 0, _ => []
  | fuel + 1, p =>
    if p = stop then []
    else ⟨p + 4, (wordAt mem p).toInt⟩ ::
      elements mem stop fuel (p + 4 + (wordAt mem p).toInt.toNat)

end Lua2SC.Osc

import Mathlib

/-!
# C++ exceptions below a Lua function

A C++ function called from Lua can be left by `luaL_error` or by a C++
exception, and what tells the two apart is which `catch` clause is on the way.
An exception is its class and its text. The classes are oscpack's; all derive
from `osc::Exception`, and none from another.
-/

namespace Lua2SC.Osc

/-- The classes of `OscReceivedElements.h` and `OscOutboundPacketStream.h`. -/
inductive ExceptionClass where
  | malformedPacket
  | malformedMessage
  | malformedBundle
  | wrongArgumentType
  | outOfBufferMemory
  | bundleNotInProgress
  | messageInProgress
  | messageNotInProgress
deriving DecidableEq, Repr

structure Exception where
  cls : ExceptionClass
  what : String
deriving DecidableEq, Repr

inductive Thrown where
  | luaError (msg : String)
  | exception (ex : Exception)
deriving DecidableEq, Repr

abbrev Cpp := Except Thrown

/-- `throw cls(what)`. -/
def throwEx {α : Type} (cls : ExceptionClass) (what : String) : Cpp α :=
  .error (.exception ⟨cls, what⟩)

def luaL_error {α : Type} (msg : String) : Cpp α := .error (.luaError msg)

/-- `try { m } catch(cls Ex) { luaL_error(state, fmt, Ex.what()); }`. -/
def catching {α : Type} (cls : ExceptionClass) (fmt : String → String) (m : Cpp α) : Cpp α :=
  match m with
  | .error (.exception ex) => if ex.cls = cls then luaL_error (fmt ex.what) else m
  | _ => m

/-- The same with `catch(osc::Exception Ex)`. -/
def catchingAll {α : Type} (fmt : String → String) (m : Cpp α) : Cpp α :=
  match m with
  | .error (.exception ex) => luaL_error (fmt ex.what)
  | _ => m

theorem catchingAll_ok_iff {α : Type} {fmt : String → String} {m : Cpp α} {a : α} :
    catchingAll fmt m = .ok a ↔ m = .ok a := by
  unfold catchingAll
  split
  · simp [luaL_error]
  · rfl

end Lua2SC.Osc

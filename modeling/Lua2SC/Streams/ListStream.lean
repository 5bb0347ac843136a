import Lua2SC.Lib.Source

/-!
# ListStream

`LS(t, r)` goes `r` times over the list `t` and then gives nil. An element that is
itself a stream is not given but played: `Stream:nextval` keeps it in `recur` and
asks it until it ends, and goes on with the list. At its end a `ListStream`
resets itself and the streams in its list, so it can be played again.

`recur` is always the element before `pos`, so a flag says whether there is one.
The state of every element is kept with the list. The two loops (`while true` of
`pnext`, and that of `nextval`) take their turns from the fuel.
-/

namespace Lua2SC.Streams

open Lua2SC.Sources

variable {V E : Type}

/-- A stream that gives the same value again and again. -/
def ConstantStream (value : V) : Source V E where
  S := Unit
  init := ()
  next _ e s := .ok (some value, s, e)
  reset := id

/-- What stands in the list of a `ListStream`. -/
inductive Item (V E : Type) where
  | atom (v : V)
  | stream (o : Source V E)

/-- What has to be kept of it. -/
def Item.source : Item V E → Source V E
  | .atom v => ConstantStream v
  | .stream o => o

/-- The fields of a `ListStream`. -/
structure ListState (list : List (Item V E)) where
  children : States (list.map Item.source)
  pos : ℕ
  creps : ℕ
  recur : Bool

/-- What `pnext` returns. -/
inductive Pulled (V : Type) where
  | ended
  | atom (v : V)
  | stream

namespace ListState

variable {list : List (Item V E)} (atReps : ℕ → Bool) (s : ListState list)

/-- `ListStream:reset`. -/
def reset : ListState list := ⟨s.children.reset, 1, 0, false⟩

end ListState

namespace ListStream

variable (list : List (Item V E)) (atReps : ℕ → Bool)

/-- `ListStream:pnext`; `atReps` is `self.creps == self.reps`. -/
def pnext : ℕ → ListState list → Except Halt (Pulled V × ListState list)
  | 0, _ => .error .spin
  | turns + 1, s =>
    if atReps s.creps then .ok (.ended, s.reset)
    else
      match list[s.pos - 1]? with
      | some (.atom v) => .ok (.atom v, { s with pos := s.pos + 1 })
      | some (.stream _) => .ok (.stream, { s with pos := s.pos + 1 })
      | none => pnext turns { s with pos := 1, creps := s.creps + 1 }

/-- `Stream:nextval`. -/
def nextval (n : ℕ) : ℕ → E → ListState list → Except Halt (Option V × ListState list × E)
  | 0, _, _ => .error .spin
  | turns + 1, e, s =>
    if s.recur then do
      let (curval, children, e) ← s.children.next (s.pos - 2) n e
      match curval with
      | none => nextval n turns e { s with children := children, recur := false }
      | some v => .ok (some v, { s with children := children }, e)
    else do
      let (curval, s) ← pnext list atReps n s
      match curval with
      | .ended => .ok (none, s, e)
      | .atom v => .ok (some v, s, e)
      | .stream => nextval n turns e { s with recur := true }

end ListStream

/-- A `ListStream` over a list. -/
def ListStream (list : List (Item V E)) (atReps : ℕ → Bool) : Source V E where
  S := ListState list
  init := ⟨States.init _, 1, 0, false⟩
  next n e s := ListStream.nextval list atReps n n e s
  reset := ListState.reset

/-- `LS(t, r)`. -/
def LS (t : List (Item V E)) (r : ℤ) : Source V E := ListStream t fun creps => (creps : ℤ) == r

end Lua2SC.Streams

import Lua2SC.Streams.ListStream
import Lua2SC.Streams.Value

/-!
# The stream classes

One definition a class of `stream.lua`: what `new` leaves it with, its `pnext`, its
`reset`. `Stream:nextval` hands on what `pnext` returns when that is no stream,
and only the elements of a `ListStream` are, so for the other classes `next` is
`pnext`. What a stream passes on to its parts is the caller, which the parts may
change; the loops take their turns from the fuel.

`Stream.reset` sets `pos`, `creps` and `recur`. Of these classes only `SSkip` uses
one of them for itself, and there it matters: `SSkip:reset` sets `pos` to 0 and
then calls `Stream.reset`, which sets it to 1. `PclumpSt` has no `reset` of its
own, and that of `AlternateSt` does not reset the streams it alternates between.

The streams of events (`PS`, `ADV`, `FinDur`, `ParS`, `MERGE`) are in
`Streams.Events`.
-/

namespace Lua2SC.Streams

open Lua2SC.Lua Lua2SC.Sources

/-- A stream of values. -/
abbrev Stream (R : Type) := Source (Value R) (World R)

variable {R : Type}

/-! ## Arithmetic, tuples, functions -/

/-- `OpStreams`; `Op` is an operator, with the metatable that `TA` gives a list. -/
def OpStreams (Op : Value R → Value R → World R → Except Halt (Value R × World R))
    (stA stB : Stream R) : Stream R where
  S := stA.S × stB.S
  init := (stA.init, stB.init)
  next n e s := do
    let (a, sA, e) ← stA.next n e s.1
    let (b, sB, e) ← stB.next n e s.2
    match a, b with
    | some a, some b => do
      let (v, e) ← Op a b e
      return (some v, (sA, sB), e)
    | _, _ => return (none, (sA, sB), e)
  reset s := (stA.reset s.1, stB.reset s.2)

/-- `addOp`, for numbers. -/
def addOp [Add R] : Value R → Value R → World R → Except Halt (Value R × World R)
  | .num x, .num y, e => .ok (.num (x + y), e)
  | _, _, _ => .error (.error "attempt to perform arithmetic")

/-- The loop of `StreamTuple:pnext` over the streams from `i` on. -/
def tupleFrom {stlist : List (Stream R)} (n : ℕ) : (left i : ℕ) → World R → States stlist →
    Except Halt (Option (Fields R) × States stlist × World R)
  | 0, _, e, s => .ok (some [], s, e)
  | left + 1, i, e, s => do
    let (v, s, e) ← s.next i n e
    match v with
    | none => return (none, s, e)
    | some v => do
      let (list2, s, e) ← tupleFrom n left (i + 1) e s
      return (list2.map ((.index (i + 1), v) :: ·), s, e)

/-- `StreamTuple`. -/
def StreamTuple (stlist : List (Stream R)) : Stream R where
  S := States stlist
  init := States.init stlist
  next n e s := do
    let (list2, s, e) ← tupleFrom n stlist.length 0 e s
    match list2 with
    | none => return (none, s.reset, e)
    | some list2 => do
      let (list2, e) := e.new list2
      return (some (.table list2), s, e)
  reset := States.reset

/-- `StreamFunc`; `func` returns no stream. -/
def StreamFunc (argus : Stream R)
    (func : Value R → World R → Except Halt (Option (Value R) × World R)) : Stream R where
  S := argus.S
  init := argus.init
  next n e s := do
    let (ret, s, e) ← argus.next n e s
    match ret with
    | none => return (none, argus.reset s, e)
    | some ret => do
      let (ret, e) ← func ret e
      return (ret, s, e)
  reset := argus.reset

/-! ## Skipping, repeating, alternating, clumping -/

/-- The fields of `SSkip`. -/
structure SkipState (pat : Stream R) where
  pat : pat.S
  pos : ℤ

/-- The loop of `SSkip:pnext`; whether it was left at the end of `pat`. -/
def skipTo (pat : Stream R) (endp : ℤ) (n : ℕ) :
    ℕ → World R → SkipState pat → Except Halt (Bool × SkipState pat × World R)
  | 0, _, _ => .error .spin
  | turns + 1, e, s =>
    if s.pos < endp then do
      let (vals, sP, e) ← pat.next n e s.pat
      if vals.any Value.truthy then skipTo pat endp n turns e ⟨sP, s.pos + 1⟩
      else return (true, { s with pat := sP }, e)
    else .ok (false, s, e)

/-- `SSkip`. -/
def SSkip (ini endp : ℤ) (pat : Stream R) : Stream R where
  S := SkipState pat
  init := ⟨pat.init, 0⟩
  next n e s :=
    if s.pos < ini then do
      let (vals, sP, e) ← pat.next n e s.pat
      return (vals, ⟨sP, s.pos + 1⟩, e)
    else do
      let (ended, s, e) ← skipTo pat endp n n e s
      if ended then return (none, s, e)
      else do
        let (vals, sP, e) ← pat.next n e s.pat
        return (vals, { s with pat := sP }, e)
  -- `self.pos=0; Stream.reset(self)`
  reset s := ⟨pat.reset s.pat, 1⟩

/-- The fields of `SSkipDur`. -/
structure SkipDurState (pat : Stream R) where
  pat : pat.S
  c_dur : R

section Durations

variable [LT R] [DecidableLT R] [Add R]

/-- The loop of `SSkipDur:pnext`; whether it was left at the end of `pat`. -/
def skipDur (pat : Stream R) (skipdur : R) (n : ℕ) :
    ℕ → World R → SkipDurState pat → Except Halt (Bool × SkipDurState pat × World R)
  | 0, _, _ => .error .spin
  | turns + 1, e, s =>
    if s.c_dur < skipdur then do
      let (vals, sP, e) ← pat.next n e s.pat
      match vals with
      | none => return (true, { s with pat := sP }, e)
      | some vals =>
        if vals.truthy then
          skipDur pat skipdur n turns e ⟨sP, s.c_dur + (← e.number vals "delta")⟩
        else return (true, { s with pat := sP }, e)
    else .ok (false, s, e)

/-- `SSkipDur`. -/
def SSkipDur [Zero R] (skipdur : R) (pat : Stream R) : Stream R where
  S := SkipDurState pat
  init := ⟨pat.init, 0⟩
  next n e s := do
    let (ended, s, e) ← skipDur pat skipdur n n e s
    if ended then return (none, s, e)
    else do
      let (vals, sP, e) ← pat.next n e s.pat
      if vals.any Value.truthy then return (vals, { s with pat := sP }, e)
      else return (none, ⟨pat.reset sP, 0⟩, e)
  reset s := ⟨pat.reset s.pat, 0⟩

end Durations

/-- `LS({val2}, n)`, the list that `RepeaterSt` plays. -/
structure PrivateL (R : Type) where
  val : Value R
  n : Option (Value R)
  list : ListState [(.atom val : Item (Value R) (World R))]

/-- The fields of `RepeaterSt`. -/
structure RepeaterState (N pat : Stream R) where
  N : N.S
  pat : pat.S
  privateL : Option (PrivateL R)

section Counts

variable [NatCast R] [DecidableEq R]

/-- `self.creps == self.reps` in `LS({val2}, n)`: without a number it is played once. -/
def repsReached : Option (Value R) → ℕ → Bool
  | some (.num n), creps => (creps : R) = n
  | some (.bool false), creps => creps == 1
  | none, creps => creps == 1
  | _, _ => false

/-- `if not self.privateL then … end` of `RepeaterSt:pnext`; none where `pat` ends. -/
def takeValue (N pat : Stream R) (n : ℕ) (e : World R) (s : RepeaterState N pat) :
    Except Halt (Option (PrivateL R) × RepeaterState N pat × World R) :=
  match s.privateL with
  | some privateL => .ok (some privateL, s, e)
  | none => do
    let (count, sN, e) ← N.next n e s.N
    let (val2, sP, e) ← pat.next n e s.pat
    match val2 with
    | some val2 =>
      if val2.truthy then
        return (some ⟨val2, count, ⟨States.init _, 1, 0, false⟩⟩, { s with N := sN, pat := sP }, e)
      else return (none, { s with N := sN, pat := sP }, e)
    | none => return (none, { s with N := sN, pat := sP }, e)

/-- `RepeaterSt:pnext`. -/
def repeatValue (N pat : Stream R) (n : ℕ) : ℕ → World R → RepeaterState N pat →
    Except Halt (Option (Value R) × RepeaterState N pat × World R)
  | 0, _, _ => .error .spin
  | turns + 1, e, s => do
    let (privateL, s, e) ← takeValue N pat n e s
    match privateL with
    | none => return (none, s, e)
    | some l => do
      let (val, list, _) ← ListStream.nextval _ (repsReached l.n) n n e l.list
      if val.any Value.truthy then return (val, { s with privateL := some { l with list } }, e)
      else repeatValue N pat n turns e { s with privateL := none }

/-- `RepeaterSt`. -/
def RepeaterSt (N pat : Stream R) : Stream R where
  S := RepeaterState N pat
  init := ⟨N.init, pat.init, none⟩
  next n e s := repeatValue N pat n n e s
  reset s := ⟨N.reset s.N, pat.reset s.pat, none⟩

end Counts

/-- The fields of `AlternateSt`. -/
structure AlternateState (patlist : List (Stream R)) where
  patindex : ℕ
  patlist : States patlist

/-- `AlternateSt`. -/
def AlternateSt (patlist : List (Stream R)) : Stream R where
  S := AlternateState patlist
  init := ⟨1, States.init patlist⟩
  next n e s :=
    if patlist.length < s.patindex then .error (.error "attempt to index local 'pat' (a nil value)")
    else do
      let patindex := if patlist.length < s.patindex + 1 then 1 else s.patindex + 1
      let (v, patlist, e) ← s.patlist.next (s.patindex - 1) n e
      return (v, ⟨patindex, patlist⟩, e)
  -- the patterns are not reset
  reset s := { s with patindex := 1 }

section Clumps

variable [NatCast R] [LE R] [DecidableLE R]

/-- The loop `for i = 1,n` of `PclumpSt:pnext`. -/
def clump (pat : Stream R) (limit : R) (n : ℕ) : ℕ → ℕ → Fields R → World R → pat.S →
    Except Halt (Fields R × pat.S × World R)
  | 0, _, _, _, _ => .error .spin
  | turns + 1, i, res, e, s =>
    if (i : R) ≤ limit then do
      let (v, s, e) ← pat.next n e s
      clump pat limit n turns (i + 1) (Fields.set res (.index i) v) e s
    else .ok (res, s, e)

/-- `PclumpSt`; `Stream.reset` is its `reset`. -/
def PclumpSt (N pat : Stream R) : Stream R where
  S := N.S × pat.S
  init := (N.init, pat.init)
  next n e s := do
    let (limit, sN, e) ← N.next n e s.1
    match limit with
    | some (.num limit) => do
      let (res, sP, e) ← clump pat limit n n 1 [] e s.2
      let (res, e) := e.new res
      return (some (.table res), (sN, sP), e)
    | _ => .error (.error "'for' limit must be a number")
  reset := id

end Clumps

end Lua2SC.Streams

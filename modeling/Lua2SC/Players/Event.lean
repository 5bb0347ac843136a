import Lua2SC.Lib.Lua

/-!
# Events and their voices

An event is a Lua table from parameter names to values, as a stream yields
it. Beats, frequencies and parameter values are numbers of one type `R`:
the models that need an order or a sum ask for it, and nothing depends on
which numbers they are, so infinite durations (`math.huge`) are numbers of
a suitable `R`.

`REST` and `NOP` are the two marker tables of `utilsstream.lua`. They swallow
arithmetic through their metatables (`arith`), and `midi2freq` and `getNote`
hand them through. Every other table, every function and every control mapper
of an event is known by its identity, as Lua compares it. What stands behind
an identity (the array part of a table, the result of a function, the bundle
of a mapper), the scales, the pitch arithmetic and arithmetic on anything but
numbers and markers are the fields of `Script`.

`playEvent` spreads an event over its voices: one for each place of its
longest list, every list read cyclically, and `dur` and `delta` taken out
(`keydata`).
-/

namespace Lua2SC.Players

open Lua2SC.Lua

/-- A value of an event, other than nil. -/
inductive Val (R : Type*) where
  | num (x : R)
  | str (s : LString)
  | bool (b : Bool)
  | rest
  | nop
  | table (id : ℕ)
  | func (id : ℕ)
  | mapper (id : ℕ)
deriving DecidableEq, Repr

/-- An event: parameter names and values. -/
abbrev Event (R : Type*) := LuaTable LString (Val R)

/-- An argument of an OSC message. -/
inductive Arg (R : Type*) where
  | str (s : LString)
  | node (n : ℕ)
  | int (n : ℤ)
  | int32 (n : ℤ)
  | float (v : Val R)
  | val (v : Val R)
  | openArray
  | closeArray
deriving DecidableEq, Repr

/-- An OSC message. -/
structure Message (R : Type*) where
  path : LString
  args : List (Arg R)
deriving DecidableEq, Repr

/-- The arithmetic operators the players use on values. -/
inductive ArithOp where
  | add
  | mul
  | div
deriving DecidableEq, Repr

/-- What the players take from the script and from number arithmetic: the
contents of the tables of its events, the results of its functions, its
scales, the bundles of its control mappers; `440 * 2^((midi - 69) / 12)`, the
arithmetic at the end of `getNote`, and arithmetic on operands that are
neither numbers nor markers (strings, mappers), which may raise an error. -/
structure Script (R : Type*) where
  elems : ℕ → List (Val R)
  callFn : ℕ → Option (Val R)
  modes : LString → Option (List (Val R))
  scales : LString → Option (List (Val R))
  verb : ℕ → LString → Val R → Option (Val R) → List (Message R)
  tempered : Val R → LuaM (Val R)
  pitch : List (Val R) → Val R → LuaM (Val R)
  metaArith : ArithOp → Option (Val R) → Option (Val R) → LuaM (Val R)

variable {R : Type*}

/-! ## Values -/

/-- `IsREST(val)`. -/
def IsREST (v : Option (Val R)) : Bool := match v with
  | some .rest => true
  | _ => false

/-- `IsNOP(val)`. -/
def IsNOP (v : Option (Val R)) : Bool := match v with
  | some .nop => true
  | _ => false

/-- A Lua condition: nil and false fail. -/
def truthy (v : Option (Val R)) : Bool := match v with
  | none => false
  | some (.bool b) => b
  | some _ => true

/-- The value, where a Lua condition on it holds. -/
def whenTrue (v : Option (Val R)) : Option (Val R) := if truthy v = true then v else none

/-- `a or b` on values. -/
def luaOr (a : Option (Val R)) (b : Val R) : Val R := (whenTrue a).getD b

section Arithmetic

variable [Add R] [Mul R] [Div R]

/-- The operator on numbers. -/
def ArithOp.apply (op : ArithOp) (x y : R) : R :=
  match op with
  | .add => x + y
  | .mul => x * y
  | .div => x / y

/-- An arithmetic operator, with the metatables of `REST` and `NOP`: the first
operand that is one of them is the result. -/
def arith (sc : Script R) (op : ArithOp) (a b : Option (Val R)) : LuaM (Val R) :=
  match a, b with
  | some (.num x), some (.num y) => .ok (.num (op.apply x y))
  | some .rest, _ => .ok .rest
  | some .nop, _ => .ok .nop
  | _, some .rest => .ok .rest
  | _, some .nop => .ok .nop
  | a, b => sc.metaArith op a b

end Arithmetic

/-- `a < b` on numbers; the markers and mixed operands do not compare. -/
def lessThan [LT R] [DecidableLT R] (a b : Option (Val R)) : LuaM Bool :=
  match a, b with
  | some (.num x), some (.num y) => .ok (decide (x < y))
  | _, _ => .error "attempt to compare two values"

/-- `midi2freq(midi)`. -/
def midi2freq (sc : Script R) (midi : Val R) : LuaM (Val R) :=
  if IsREST (some midi) = true ∨ IsNOP (some midi) = true then .ok midi
  else sc.tempered midi

/-- `getNote(nv, mode)`. -/
def getNote (sc : Script R) (nv mode : Val R) : LuaM (Val R) :=
  if IsREST (some nv) = true ∨ IsNOP (some nv) = true then .ok nv
  else do
    let mode_notes ← match mode with
      | .table id => .ok (sc.elems id)
      | .rest | .nop | .mapper _ => .ok []
      | .str s => match sc.modes s, sc.scales s with
        | some notes, _ => .ok notes
        | none, some notes => .ok notes
        | none, none => .error "mode not found"
      | _ => .error "mode not found"
    sc.pitch mode_notes nv

/-! ## Voices -/

/-- `len(t)`: the length of a table; everything else counts as one. -/
def len (sc : Script R) (v : Val R) : ℕ :=
  match v with
  | .table id => (sc.elems id).length
  | .rest | .nop | .mapper _ => 0
  | _ => 1

/-- `WrapAtSimple(t, i)`: place `i` of a simple table, read cyclically. -/
def WrapAtSimple (sc : Script R) (v : Val R) (i : ℕ) : Option (Val R) :=
  match v with
  | .table id =>
    let t := sc.elems id
    let i := i % t.length
    let i := if i ≠ 0 then i else t.length
    t[i - 1]?
  | v => some v

/-- `getmaxlen(lista)`. -/
def getmaxlen (sc : Script R) (lista : Event R) : ℕ :=
  lista.entries.foldl (fun maxlen kv => max maxlen (len sc kv.2)) 1

/-- The table a voice is given: place `i` of every value, without `dur` and
`delta`. -/
def keydata (sc : Script R) (lista : Event R) (i : ℕ) : Event R :=
  let all := lista.entries.foldl (fun keydata kv =>
    match WrapAtSimple sc kv.2 i with
    | some v => keydata.insert kv.1 v
    | none => keydata) (∅ : Event R)
  (all.erase (ascii "dur")).erase (ascii "delta")

/-- The voices of an event, in the order they are played. -/
def voices (sc : Script R) (lista : Event R) : List (Event R) :=
  (List.range' 1 (getmaxlen sc lista)).map (keydata sc lista)

/-- Every event has a voice. -/
theorem getmaxlen_pos (sc : Script R) (lista : Event R) : 0 < getmaxlen sc lista := by
  have hfold : ∀ (kvs : List (Sigma fun _ : LString => Val R)) (m : ℕ), 0 < m →
      0 < kvs.foldl (fun maxlen kv => max maxlen (len sc kv.2)) m := by
    intro kvs
    induction kvs with
    | nil => intro m hm; exact hm
    | cons kv kvs ih =>
      intro m hm
      exact ih _ (lt_of_lt_of_le hm (Nat.le_max_left _ _))
  exact hfold lista.entries 1 Nat.one_pos

end Lua2SC.Players

import Lua2SC.Lib.Logged
import Lua2SC.SynthDef.Graph

/-!
# Operators on UGens

Lua calls `UGen.__add` and its like when an operand of `+ - * /` is no number; the other
operators are methods, or `BinOp`. They leave an operand alone where it is known that
nothing changes (`b == 1` for `*`) and otherwise make a `BinaryOpUGen` or a `UnaryOpUGen`,
which take the greatest of their operands' rates. `madd` and `range` make a `MulAdd`, which
takes the rate of its first operand.

The operands are numbers and UGens of one channel, so `MultiNew` calls `new1` on them at
once. A UGen is here what was made: its class, `specialIndex`, `calcrate` and inputs. One
that the expression is given, an output proxy included, is a `Source`. `new1` appends what
it makes to `Allugens`, which no operator reads: this is the log.

A number has no methods and no `calcrate`, so that calling one or asking for the other
fails. Of the arithmetic on numbers nothing is assumed but `0 == 0`.
-/

namespace Lua2SC.SynthDef.Signal

open Lua2SC.Lua Lua2SC.Logging

/-- Lua's numbers, as far as the operators use them. -/
class LuaArith (N : Type) extends Add N, Sub N, Mul N, Div N, Zero N, One N, BEq N where
  half : N
  zero_beq : ((0 : N) == 0) = true

/-- `signalRange`. -/
inductive SignalRange where
  | bipolar
  | unipolar
deriving DecidableEq, Repr

/-- A UGen or output proxy that the operators are given. -/
structure Source where
  ref : Ref
  calcrate : ℕ
  signalRange : SignalRange
deriving DecidableEq, Repr

/-- The classes that operators make UGens of; `selector` is a field of two of them. -/
inductive OpClass where
  | MulAdd
  | BinaryOpUGen (selector : LString)
  | UnaryOpUGen (selector : LString)
  | Sum3
  | Sum4
deriving DecidableEq, Repr

inductive Value (N : Type) where
  | number (x : N)
  | source (u : Source)
  | made (cls : OpClass) (specialIndex calcrate : ℕ) (inputs : List (Value N))

variable {N : Type}

/-- What fails, or gives a value and appends UGens to `Allugens`. -/
abbrev Make (N α : Type) := Logged (Value N) α

namespace Value

/-- Indexing a value with `calcrate`. -/
def calcrate : Value N → Option ℕ
  | .number _ => none
  | .source u => some u.calcrate
  | .made _ _ calcrate _ => some calcrate

/-- `(type(a)=="number") and 0 or a.calcrate`. -/
def rate (a : Value N) : ℕ := a.calcrate.getD 0

def number? : Value N → Option N
  | .number x => some x
  | _ => none

/-- Indexing a value with `signalRange`; only a few classes have one of their own. -/
def signalRange : Value N → Option SignalRange
  | .number _ => none
  | .source u => some u.signalRange
  | .made .. => some .bipolar

/-- `a == x`. -/
def equals [BEq N] (a : Value N) (x : N) : Bool :=
  match a with
  | .number y => y == x
  | _ => false

/-- The inputs of what an operator made. -/
def inputs : Value N → List (Value N)
  | .made _ _ _ inputs => inputs
  | _ => []

end Value

/-- `UGen:new1(rate, ...)`. -/
def new1 (cls : OpClass) (specialIndex rate : ℕ) (inputs : List (Value N)) : Make N (Value N) := do
  let ret := .made cls specialIndex rate inputs
  log ret
  return ret

def binary_ops : List (LString × ℕ) :=
  [(ascii "+", 0), (ascii "-", 1), (ascii "*", 2), (ascii "/", 4), (ascii "div", 3),
    (ascii "mod", 5), (ascii "pow", 25), (ascii "min", 12), (ascii "max", 13), (ascii "<", 8),
    (ascii "<=", 10), (ascii ">", 9), (ascii ">=", 11), (ascii "bitAnd", 14), (ascii "bitOr", 15),
    (ascii "bitXor", 16), (ascii "lcm", 17), (ascii "gcd", 18), (ascii "round", 19),
    (ascii "roundUp", 20), (ascii "trunc", 21), (ascii "atan2", 22), (ascii "hypot", 23),
    (ascii "hypotApx", 24), (ascii "leftShift", 26), (ascii "rightShift", 27),
    (ascii "unsignedRightShift", 28), (ascii "ring1", 30), (ascii "ring2", 31),
    (ascii "ring3", 32), (ascii "ring4", 33), (ascii "difsqr", 34), (ascii "sumsqr", 35),
    (ascii "sqrsum", 36), (ascii "sqrdif", 37), (ascii "absdif", 38), (ascii "thresh", 39),
    (ascii "amclip", 40), (ascii "scaleneg", 41), (ascii "clip2", 42), (ascii "fold2", 44),
    (ascii "wrap2", 45), (ascii "excess", 43), (ascii "firstArg", 46), (ascii "rrand", 47),
    (ascii "exprand", 48), (ascii "==", 6), (ascii "!=", 7), (ascii "eq", 6)]

def unary_ops : List (LString × ℕ) :=
  [(ascii "neg", 0), (ascii "reciprocal", 16), (ascii "bitNot", 4), (ascii "abs", 5),
    (ascii "asFloat", 6), (ascii "asInteger", 7), (ascii "ceil", 8), (ascii "floor", 9),
    (ascii "frac", 10), (ascii "sign", 11), (ascii "squared", 12), (ascii "cubed", 13),
    (ascii "sqrt", 14), (ascii "exp", 15), (ascii "midicps", 17), (ascii "cpsmidi", 18),
    (ascii "midiratio", 19), (ascii "ratiomidi", 20), (ascii "ampdb", 22), (ascii "dbamp", 21),
    (ascii "octcps", 23), (ascii "cpsoct", 24), (ascii "log", 25), (ascii "log2", 26),
    (ascii "log10", 27), (ascii "sin", 28), (ascii "cos", 29), (ascii "tan", 30),
    (ascii "asin", 31), (ascii "acos", 32), (ascii "atan", 33), (ascii "sinh", 34),
    (ascii "cosh", 35), (ascii "tanh", 36), (ascii "rand", 37), (ascii "rand2", 38),
    (ascii "linrand", 39), (ascii "bilinrand", 40), (ascii "sum3rand", 41), (ascii "distort", 42),
    (ascii "softclip", 43), (ascii "coin", 44), (ascii "rectWindow", 48), (ascii "hanWindow", 49),
    (ascii "welWindow", 50), (ascii "triWindow", 51), (ascii "scurve", 53), (ascii "ramp", 52),
    (ascii "not", 1), (ascii "isNil", 2), (ascii "notNil", 3), (ascii "digitValue", 45),
    (ascii "silence", 46), (ascii "thru", 47)]

/-- `BinaryOpUGen.newop(selector, a, b)`. -/
def newBinary (selector : LString) (a b : Value N) : Make N (Value N) := do
  let specialIndex ← ofOption (binary_ops.lookup selector)
  new1 (.BinaryOpUGen selector) specialIndex (max a.rate b.rate) [a, b]

/-- `UnaryOpUGen.newop(selector, a)`. -/
def newUnary (selector : LString) (a : Value N) : Make N (Value N) := do
  let specialIndex ← ofOption (unary_ops.lookup selector)
  new1 (.UnaryOpUGen selector) specialIndex a.rate [a]

/-- `MulAdd:newmuladd(inp, mul, add)`. -/
def newmuladd (inp mul add : Value N) : Make N (Value N) := do
  let rate ← ofOption inp.calcrate
  new1 .MulAdd 0 rate [inp, mul, add]

/-! ## `+ - * /` -/

variable [LuaArith N]

/-- `UGen.__mul`. -/
def mulEvent (a b : Value N) : Make N (Value N) :=
  if b.equals 1 then pure a
  else if a.equals 1 then pure b
  else newBinary (ascii "*") a b

/-- `UGen.__add`. -/
def addEvent (a b : Value N) : Make N (Value N) :=
  if b.equals 0 then pure a
  else if a.equals 0 then pure b
  else newBinary (ascii "+") a b

/-- `UGen.__unm`. -/
def unmEvent (a : Value N) : Make N (Value N) := newUnary (ascii "neg") a

/-- `UGen.__sub`. -/
def subEvent (a b : Value N) : Make N (Value N) :=
  if b.equals 0 then pure a
  else if a.equals 0 then unmEvent b
  else newBinary (ascii "-") a b

/-- `UGen.__div`. -/
def divEvent (a b : Value N) : Make N (Value N) :=
  if b.equals 1 then pure a
  else newBinary (ascii "/") a b

/-- The arithmetic operators of an expression. -/
inductive Operator where
  | add
  | sub
  | mul
  | div
deriving DecidableEq, Repr

/-- On numbers. -/
def Operator.arith : Operator → N → N → N
  | add => (· + ·)
  | sub => (· - ·)
  | mul => (· * ·)
  | div => (· / ·)

/-- The metamethod, which Lua calls if an operand is no number. -/
def Operator.event : Operator → Value N → Value N → Make N (Value N)
  | add => addEvent
  | sub => subEvent
  | mul => mulEvent
  | div => divEvent

/-- `a + b` and the other operators. -/
def Operator.apply (op : Operator) (a b : Value N) : Make N (Value N) :=
  match a, b with
  | .number x, .number y => pure (.number (op.arith x y))
  | a, b => op.event a b

/-! ## Methods -/

/-- `self:madd(mul, add)`. -/
def madd (self mul add : Value N) : Make N (Value N) := do
  let _ ← ofOption self.calcrate
  if add.equals 0 then
    if mul.equals 1 then pure self else Operator.mul.apply self mul
  else
    if mul.equals 1 then Operator.add.apply self add else newmuladd self mul add

/-- `self:range(lo, hi)`. -/
def range (self : Value N) (lo hi : Option (Value N)) : Make N (Value N) := do
  let signalRange ← ofOption self.signalRange
  let lo := lo.getD (.number 0)
  let hi := hi.getD (.number 1)
  match signalRange with
  | .bipolar =>
    let mul ← Operator.sub.apply hi lo
    let mul ← Operator.mul.apply mul (.number LuaArith.half)
    let add ← Operator.add.apply mul lo
    newmuladd self mul add
  | .unipolar =>
    let mul ← Operator.sub.apply hi lo
    newmuladd self mul lo

omit [LuaArith N] in
/-- `self:k()` for the `k` of `unary_ops`. -/
def unaryMethod (k : LString) (self : Value N) : Make N (Value N) := do
  let _ ← ofOption self.calcrate
  newUnary k self

omit [LuaArith N] in
/-- `self:k(b)` for the `k` of `binary_ops`. -/
def binaryMethod (k : LString) (self b : Value N) : Make N (Value N) := do
  let _ ← ofOption self.calcrate
  newBinary k self b

omit [LuaArith N] in
/-- `BinOp(a, op, b)`; `self:BOp(op, b)` is the method of that name. -/
def BinOp (a : Value N) (op : LString) (b : Value N) : Make N (Value N) := newBinary op a b

/-! ## What was made -/

section Made

omit [LuaArith N]

theorem new1_eq_some {cls : OpClass} {specialIndex rate : ℕ} {inputs : List (Value N)}
    {v : Value N} {made : List (Value N)} :
    (new1 cls specialIndex rate inputs).run = some (v, made) ↔
      v = .made cls specialIndex rate inputs ∧ made = [.made cls specialIndex rate inputs] := by
  show some (_, [_] ++ []) = some (v, made) ↔ _
  rw [Option.some.injEq, Prod.mk.injEq, eq_comm (a := v), eq_comm (a := made), List.append_nil]

theorem newBinary_eq_some {selector : LString} {a b v : Value N} {made : List (Value N)}
    (h : (newBinary selector a b).run = some (v, made)) : ∃ i,
      v = .made (.BinaryOpUGen selector) i (max a.rate b.rate) [a, b] ∧ made = [v] := by
  obtain ⟨i, w₁, w₂, hi, hnew, rfl⟩ := bind_eq_some.mp h
  obtain ⟨-, rfl⟩ := ofOption_eq_some.mp hi
  obtain ⟨rfl, rfl⟩ := new1_eq_some.mp hnew
  exact ⟨i, rfl, rfl⟩

theorem newUnary_eq_some {selector : LString} {a v : Value N} {made : List (Value N)}
    (h : (newUnary selector a).run = some (v, made)) : ∃ i,
      v = .made (.UnaryOpUGen selector) i a.rate [a] ∧ made = [v] := by
  obtain ⟨i, w₁, w₂, hi, hnew, rfl⟩ := bind_eq_some.mp h
  obtain ⟨-, rfl⟩ := ofOption_eq_some.mp hi
  obtain ⟨rfl, rfl⟩ := new1_eq_some.mp hnew
  exact ⟨i, rfl, rfl⟩

theorem newmuladd_eq_some {inp mul add v : Value N} {made : List (Value N)}
    (h : (newmuladd inp mul add).run = some (v, made)) :
    v = .made .MulAdd 0 inp.rate [inp, mul, add] ∧ made = [v] := by
  obtain ⟨rate, w₁, w₂, hindex, hnew, rfl⟩ := bind_eq_some.mp h
  obtain ⟨hrate, rfl⟩ := ofOption_eq_some.mp hindex
  obtain ⟨rfl, rfl⟩ := new1_eq_some.mp hnew
  rw [Value.rate, hrate]
  exact ⟨rfl, rfl⟩

end Made

end Lua2SC.SynthDef.Signal

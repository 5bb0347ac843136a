import Mathlib.Algebra.BigOperators.Group.List.Basic
import Mathlib.Tactic.LinearCombination
import Lua2SC.SynthDef.RateInference

/-!
# The operators keep the value of an expression

What the operators make of an expression is not the tree that is written: numbers are worked out at
once, `+ 0`, `* 1`, `0 -` and `/ 1` leave no UGen behind, `madd` makes a `MulAdd`, a product, a sum
or nothing, `range` puts the way from one range to the other into a `MulAdd`, and `Mix` makes a tree
of sums and sorts what it adds up. None of it changes the value (`eval_meaning`).

Signals are the elements of a commutative ring, as functions of the time are. How the server
understands what it is sent, a `specialIndex` for instance, is a `Semantics`. Rounding is left
aside: numbers are added, subtracted, multiplied and divided as the server would do it.
-/

namespace Lua2SC.SynthDef.Signal

open Lua2SC.Lua Lua2SC.Logging Lua2SC.DueQueue

/-- What the server makes of numbers, of given UGens and of the operators by their
`specialIndex`. -/
structure Semantics (N V : Type) [LuaArith N] [CommRing V] where
  const : N → V
  source : Source → V
  unary : ℕ → V → V
  binary : ℕ → V → V → V
  const_eq : ∀ {x y : N}, (x == y) = true → const x = const y
  const_zero : const 0 = 0
  const_one : const 1 = 1
  half : const LuaArith.half * 2 = 1
  const_add : ∀ x y, const (x + y) = const x + const y
  const_sub : ∀ x y, const (x - y) = const x - const y
  const_mul : ∀ x y, const (x * y) = const x * const y
  const_div : ∀ x y, const (x / y) = binary 4 (const x) (const y)
  neg : ∀ a, unary 0 a = -a
  add : ∀ a b, binary 0 a b = a + b
  sub : ∀ a b, binary 1 a b = a - b
  mul : ∀ a b, binary 2 a b = a * b
  div_one : ∀ a, binary 4 a 1 = a

variable {N V : Type} [LuaArith N] [CommRing V] (S : Semantics N V)

/-! ## The two meanings -/

/-- The output of a UGen that an operator has made. -/
def Semantics.ugen (cls : OpClass) (specialIndex : ℕ) (inputs : List V) : V :=
  match cls, inputs with
  | .MulAdd, [inp, mul, add] => inp * mul + add
  | .BinaryOpUGen _, [a, b] => S.binary specialIndex a b
  | .UnaryOpUGen _, [a] => S.unary specialIndex a
  | .Sum3, inputs => inputs.sum
  | .Sum4, inputs => inputs.sum
  | _, _ => 0

mutual

/-- What the server makes of a value. -/
def Value.meaning : Value N → V
  | .number x => S.const x
  | .source u => S.source u
  | .made cls specialIndex _ inputs => S.ugen cls specialIndex (Value.meanings inputs)

def Value.meanings : List (Value N) → List V
  | [] => []
  | v :: vs => v.meaning :: Value.meanings vs

end

theorem meanings_eq (vs : List (Value N)) : Value.meanings S vs = vs.map (Value.meaning S) := by
  induction vs with
  | nil => rw [Value.meanings, List.map_nil]
  | cons v vs ih => rw [Value.meanings, ih, List.map_cons]

/-- The operators on signals. -/
def Operator.signal : Operator → V → V → V
  | add, a, b => a + b
  | sub, a, b => a - b
  | mul, a, b => a * b
  | div, a, b => S.binary 4 a b

/-- The range that the value of an expression says it has. -/
def Expr.signalRange (sort : List (Value N) → List (Value N)) (e : Expr N) : Option SignalRange :=
  (e.eval sort).run.bind fun result => result.1.signalRange

/-- From the range a UGen says it has to that between `lo` and `hi`. -/
def onto (signalRange : Option SignalRange) (half self lo hi : V) : V :=
  match signalRange with
  | some .unipolar => lo + self * (hi - lo)
  | _ => lo + (self + 1) * half * (hi - lo)

mutual

/-- What an expression says, taken as it is written. -/
def Expr.meaning (sort : List (Value N) → List (Value N)) : Expr N → V
  | .number x => S.const x
  | .ugen u => S.source u
  | .arith op a b => op.signal S (a.meaning sort) (b.meaning sort)
  | .unary k self => ((unary_ops.lookup k).map fun i => S.unary i (self.meaning sort)).getD 0
  | .binary k self b =>
    ((binary_ops.lookup k).map fun i => S.binary i (self.meaning sort) (b.meaning sort)).getD 0
  | .BinOp a op b =>
    ((binary_ops.lookup op).map fun i => S.binary i (a.meaning sort) (b.meaning sort)).getD 0
  | .madd self mul add => self.meaning sort * mul.meaning sort + add.meaning sort
  | .range self lo hi =>
    onto (self.signalRange sort) (S.const LuaArith.half) (self.meaning sort) (lo.meaning sort)
      (hi.meaning sort)
  | .mix t => t.meaning sort
  | .mixArray ts => Expr.meaningSum sort ts

/-- The sum of the list. -/
def Expr.meaningSum (sort : List (Value N) → List (Value N)) : List (Expr N) → V
  | [] => 0
  | e :: es => e.meaning sort + Expr.meaningSum sort es

end

/-! ## One operator -/

variable {S} {a b v : Value N} {made : List (Value N)}

theorem newBinary_meaning {selector : LString} (h : (newBinary selector a b).run = some (v, made)) :
    ∃ i, binary_ops.lookup selector = some i ∧
      v.meaning S = S.binary i (a.meaning S) (b.meaning S) := by
  obtain ⟨i, w₁, w₂, hlookup, hnew, rfl⟩ := bind_eq_some.mp h
  obtain ⟨hi, rfl⟩ := ofOption_eq_some.mp hlookup
  obtain ⟨rfl, rfl⟩ := new1_eq_some.mp hnew
  refine ⟨i, hi, ?_⟩
  rw [Value.meaning, meanings_eq]
  rfl

theorem newUnary_meaning {selector : LString} (h : (newUnary selector a).run = some (v, made)) :
    ∃ i, unary_ops.lookup selector = some i ∧ v.meaning S = S.unary i (a.meaning S) := by
  obtain ⟨i, w₁, w₂, hlookup, hnew, rfl⟩ := bind_eq_some.mp h
  obtain ⟨hi, rfl⟩ := ofOption_eq_some.mp hlookup
  obtain ⟨rfl, rfl⟩ := new1_eq_some.mp hnew
  refine ⟨i, hi, ?_⟩
  rw [Value.meaning, meanings_eq]
  rfl

theorem newmuladd_meaning {inp mul add : Value N}
    (h : (newmuladd inp mul add).run = some (v, made)) :
    v.meaning S = inp.meaning S * mul.meaning S + add.meaning S := by
  obtain ⟨rfl, -⟩ := newmuladd_eq_some h
  rw [Value.meaning, meanings_eq]
  rfl

/-- The number that an operand is equal to is its meaning. -/
theorem meaning_of_equals {x : N} (h : a.equals x = true) : a.meaning S = S.const x := by
  obtain ⟨y, rfl⟩ := number_of_equals h
  rw [Value.meaning]
  exact S.const_eq h

/-- A metamethod that makes the UGen of its operator. -/
theorem newBinary_signal {selector : LString} {i : ℕ} (hi : binary_ops.lookup selector = some i)
    (h : (newBinary selector a b).run = some (v, made)) :
    v.meaning S = S.binary i (a.meaning S) (b.meaning S) := by
  obtain ⟨j, hj, hv⟩ := newBinary_meaning (S := S) h
  obtain rfl : i = j := Option.some.inj (hi.symm.trans hj)
  exact hv

theorem event_meaning {op : Operator} (h : (op.event a b).run = some (v, made)) :
    v.meaning S = op.signal S (a.meaning S) (b.meaning S) := by
  cases op with
  | add =>
    simp only [Operator.event, addEvent] at h
    split at h
    next hb =>
      obtain ⟨rfl, -⟩ := pure_eq_some.mp h
      rw [Operator.signal, meaning_of_equals hb, S.const_zero, add_zero]
    next =>
      split at h
      next ha =>
        obtain ⟨rfl, -⟩ := pure_eq_some.mp h
        rw [Operator.signal, meaning_of_equals ha, S.const_zero, zero_add]
      next => exact (newBinary_signal rfl h).trans (S.add _ _)
  | sub =>
    simp only [Operator.event, subEvent] at h
    split at h
    next hb =>
      obtain ⟨rfl, -⟩ := pure_eq_some.mp h
      rw [Operator.signal, meaning_of_equals hb, S.const_zero, sub_zero]
    next =>
      split at h
      next ha =>
        obtain ⟨i, hi, hv⟩ := newUnary_meaning (S := S) h
        cases hi
        rw [hv, S.neg, Operator.signal, meaning_of_equals ha, S.const_zero, zero_sub]
      next => exact (newBinary_signal rfl h).trans (S.sub _ _)
  | mul =>
    simp only [Operator.event, mulEvent] at h
    split at h
    next hb =>
      obtain ⟨rfl, -⟩ := pure_eq_some.mp h
      rw [Operator.signal, meaning_of_equals hb, S.const_one, mul_one]
    next =>
      split at h
      next ha =>
        obtain ⟨rfl, -⟩ := pure_eq_some.mp h
        rw [Operator.signal, meaning_of_equals ha, S.const_one, one_mul]
      next => exact (newBinary_signal rfl h).trans (S.mul _ _)
  | div =>
    simp only [Operator.event, divEvent] at h
    split at h
    next hb =>
      obtain ⟨rfl, -⟩ := pure_eq_some.mp h
      rw [Operator.signal, meaning_of_equals hb, S.const_one, S.div_one]
    next => exact newBinary_signal rfl h

/-- On numbers Lua works out what the server would. -/
theorem const_arith (op : Operator) (x y : N) :
    S.const (op.arith x y) = op.signal S (S.const x) (S.const y) := by
  cases op with
  | add => exact S.const_add x y
  | sub => exact S.const_sub x y
  | mul => exact S.const_mul x y
  | div => exact S.const_div x y

theorem apply_meaning {op : Operator} (h : (op.apply a b).run = some (v, made)) :
    v.meaning S = op.signal S (a.meaning S) (b.meaning S) := by
  unfold Operator.apply at h
  split at h
  next x y =>
    obtain ⟨rfl, -⟩ := pure_eq_some.mp h
    rw [Value.meaning, Value.meaning, Value.meaning]
    exact const_arith op x y
  next => exact event_meaning h

/-! ## `madd` and `range` -/

theorem madd_meaning {self mul add : Value N} (h : (madd self mul add).run = some (v, made)) :
    v.meaning S = self.meaning S * mul.meaning S + add.meaning S := by
  obtain ⟨_, w₁, w₂, -, hrest, rfl⟩ := bind_eq_some.mp h
  split at hrest
  next hadd =>
    rw [meaning_of_equals hadd, S.const_zero, add_zero]
    split at hrest
    next hmul =>
      obtain ⟨rfl, -⟩ := pure_eq_some.mp hrest
      rw [meaning_of_equals hmul, S.const_one, mul_one]
    next => exact apply_meaning hrest
  next =>
    split at hrest
    next hmul =>
      rw [meaning_of_equals hmul, S.const_one, mul_one]
      exact apply_meaning hrest
    next => exact newmuladd_meaning hrest

theorem range_meaning {self lo hi : Value N}
    (h : (range self (some lo) (some hi)).run = some (v, made)) :
    v.meaning S = onto self.signalRange (S.const LuaArith.half) (self.meaning S) (lo.meaning S)
      (hi.meaning S) := by
  obtain ⟨signalRange, w₁, w₂, hindex, hrest, rfl⟩ := bind_eq_some.mp h
  obtain ⟨hrange, rfl⟩ := ofOption_eq_some.mp hindex
  rw [hrange]
  cases signalRange with
  | bipolar =>
    obtain ⟨d, w₃, w₄, hd, hproduct, rfl⟩ := bind_eq_some.mp hrest
    obtain ⟨mul, w₅, w₆, hmul, hsum, rfl⟩ := bind_eq_some.mp hproduct
    obtain ⟨add, w₇, w₈, hadd, hmadd, rfl⟩ := bind_eq_some.mp hsum
    rw [newmuladd_meaning hmadd, apply_meaning hadd, apply_meaning hmul, apply_meaning hd]
    simp only [Operator.signal, Value.meaning, Option.getD_some, onto]
    ring
  | unipolar =>
    obtain ⟨mul, w₃, w₄, hmul, hmadd, rfl⟩ := bind_eq_some.mp hrest
    rw [newmuladd_meaning hmadd, apply_meaning hmul]
    simp only [Operator.signal, Option.getD_some, onto]
    exact add_comm _ _

/-! ## `Mix` -/

section Sums

variable {sort : List (Value N) → List (Value N)} {ts : List (Value N)}

/-- The order in which `Sum3` and `Sum4` have their inputs does not matter. -/
theorem sumNew1_meaning (hsort : SortsBy higherRate sort) {cls : OpClass}
    (hcls : cls = .Sum3 ∨ cls = .Sum4) (h : (sumNew1 sort cls ts).run = some (v, made)) :
    v.meaning S = (ts.map (Value.meaning S)).sum := by
  obtain ⟨rates, w₁, w₂, -, hhead, rfl⟩ := bind_eq_some.mp h
  obtain ⟨rate, w₃, w₄, -, hnew, rfl⟩ := bind_eq_some.mp hhead
  obtain ⟨rfl, -⟩ := new1_eq_some.mp hnew
  have hsum : ((sort ts).map (Value.meaning S)).sum = (ts.map (Value.meaning S)).sum :=
    ((hsort ts).1.map _).sum_eq
  rw [Value.meaning, meanings_eq, ← hsum]
  rcases hcls with rfl | rfl <;> rfl

theorem foldlM_add_meaning : ∀ {ts : List (Value N)} {ac v : Value N} {made : List (Value N)},
    (ts.foldlM (fun ac v => Operator.add.apply ac v) ac).run = some (v, made) →
      v.meaning S = ac.meaning S + (ts.map (Value.meaning S)).sum := by
  intro ts
  induction ts with
  | nil =>
    intro ac v made h
    obtain ⟨rfl, -⟩ := pure_eq_some.mp h
    rw [List.map_nil, List.sum_nil, add_zero]
  | cons t ts ih =>
    intro ac v made h
    rw [List.foldlM_cons] at h
    obtain ⟨u, w₁, w₂, hadd, hfold, rfl⟩ := bind_eq_some.mp h
    rw [ih hfold, apply_meaning hadd, List.map_cons, List.sum_cons]
    exact add_assoc _ _ _

theorem mixClump_meaning (hsort : SortsBy higherRate sort)
    (h : (mixClump sort ts).run = some (v, made)) :
    v.meaning S = (ts.map (Value.meaning S)).sum := by
  unfold mixClump at h
  split at h
  next => exact sumNew1_meaning hsort (.inr rfl) h
  next =>
    split at h
    next => exact sumNew1_meaning hsort (.inl rfl) h
    next => rw [foldlM_add_meaning h, Value.meaning, S.const_zero, zero_add]

theorem sum_results : ∀ {calls : List (Call (Value N) (List (Value N)) (Value N))},
    (∀ c ∈ calls, c.result.meaning S = (c.input.map (Value.meaning S)).sum) →
      ((calls.map Call.result).map (Value.meaning S)).sum =
        ((calls.map Call.input).flatten.map (Value.meaning S)).sum
  | [], _ => rfl
  | c :: calls, h => by
    rw [List.map_cons, List.map_cons, List.sum_cons, List.map_cons, List.flatten_cons,
      List.map_append, List.sum_append, h c List.mem_cons_self,
      sum_results fun d hd => h d (List.mem_cons_of_mem c hd)]

/-- However the inputs are put in clumps, their sum is that of the sums. -/
theorem mixArray_meaning (hsort : SortsBy higherRate sort)
    (h : (mixArray sort ts).run = some (v, made)) :
    v.meaning S = (ts.map (Value.meaning S)).sum := by
  refine mixArray_rule (R := fun t v _ => v.meaning S = (t.map (Value.meaning S)).sum)
    (fun t v made => mixClump_meaning hsort) ?_ h
  intro calls hcalls _ v made hv
  rw [hv]
  exact sum_results hcalls

/-! ## Expressions -/

theorem lookup_meaning {op : Option ℕ} {i : ℕ} {f : ℕ → V} (h : op = some i) :
    (op.map f).getD 0 = f i := by
  rw [h]
  rfl

mutual

/-- What an expression is evaluated to means the same. -/
theorem value_meaning (hsort : SortsBy higherRate sort) : ∀ (e : Expr N) {v : Value N}
    {made : List (Value N)}, (e.eval sort).run = some (v, made) → v.meaning S = e.meaning S sort
  | .number x, v, made, h => by
    rw [Expr.eval] at h
    obtain ⟨rfl, -⟩ := pure_eq_some.mp h
    rw [Value.meaning, Expr.meaning]
  | .ugen u, v, made, h => by
    rw [Expr.eval] at h
    obtain ⟨rfl, -⟩ := pure_eq_some.mp h
    rw [Value.meaning, Expr.meaning]
  | .arith op a b, v, made, h => by
    rw [Expr.eval] at h
    obtain ⟨va, w₁, w₂, hva, hrest, rfl⟩ := bind_eq_some.mp h
    obtain ⟨vb, w₃, w₄, hvb, hop, rfl⟩ := bind_eq_some.mp hrest
    rw [apply_meaning hop, value_meaning hsort a hva, value_meaning hsort b hvb, Expr.meaning]
  | .unary k self, v, made, h => by
    rw [Expr.eval] at h
    obtain ⟨va, w₁, w₂, hva, hrest, rfl⟩ := bind_eq_some.mp h
    obtain ⟨_, w₃, w₄, -, hop, rfl⟩ := bind_eq_some.mp hrest
    obtain ⟨i, hi, hv⟩ := newUnary_meaning (S := S) hop
    rw [hv, value_meaning hsort self hva, Expr.meaning, lookup_meaning hi]
  | .binary k self b, v, made, h => by
    rw [Expr.eval] at h
    obtain ⟨va, w₁, w₂, hva, hrest, rfl⟩ := bind_eq_some.mp h
    obtain ⟨vb, w₃, w₄, hvb, hmethod, rfl⟩ := bind_eq_some.mp hrest
    obtain ⟨_, w₅, w₆, -, hop, rfl⟩ := bind_eq_some.mp hmethod
    obtain ⟨i, hi, hv⟩ := newBinary_meaning (S := S) hop
    rw [hv, value_meaning hsort self hva, value_meaning hsort b hvb, Expr.meaning,
      lookup_meaning hi]
  | .BinOp a op b, v, made, h => by
    rw [Expr.eval] at h
    obtain ⟨va, w₁, w₂, hva, hrest, rfl⟩ := bind_eq_some.mp h
    obtain ⟨vb, w₃, w₄, hvb, hop, rfl⟩ := bind_eq_some.mp hrest
    obtain ⟨i, hi, hv⟩ := newBinary_meaning (S := S) hop
    rw [hv, value_meaning hsort a hva, value_meaning hsort b hvb, Expr.meaning, lookup_meaning hi]
  | .madd self mul add, v, made, h => by
    rw [Expr.eval] at h
    obtain ⟨vs, w₁, w₂, hvs, hrest, rfl⟩ := bind_eq_some.mp h
    obtain ⟨vm, w₃, w₄, hvm, hthen, rfl⟩ := bind_eq_some.mp hrest
    obtain ⟨va, w₅, w₆, hva, hmadd, rfl⟩ := bind_eq_some.mp hthen
    rw [madd_meaning hmadd, value_meaning hsort self hvs, value_meaning hsort mul hvm,
      value_meaning hsort add hva, Expr.meaning]
  | .range self lo hi, v, made, h => by
    rw [Expr.eval] at h
    obtain ⟨vs, w₁, w₂, hvs, hrest, rfl⟩ := bind_eq_some.mp h
    obtain ⟨vl, w₃, w₄, hvl, hthen, rfl⟩ := bind_eq_some.mp hrest
    obtain ⟨vh, w₅, w₆, hvh, hrange, rfl⟩ := bind_eq_some.mp hthen
    have hself : self.signalRange sort = vs.signalRange := by rw [Expr.signalRange, hvs]; rfl
    rw [range_meaning hrange, value_meaning hsort self hvs, value_meaning hsort lo hvl,
      value_meaning hsort hi hvh, Expr.meaning, hself]
  | .mix t, v, made, h => by
    rw [Expr.eval] at h
    obtain ⟨vt, w₁, w₂, hvt, hrest, rfl⟩ := bind_eq_some.mp h
    obtain ⟨_, w₃, w₄, -, hpure, rfl⟩ := bind_eq_some.mp hrest
    obtain ⟨rfl, -⟩ := pure_eq_some.mp hpure
    rw [value_meaning hsort t hvt, Expr.meaning]
  | .mixArray ts, v, made, h => by
    rw [Expr.eval] at h
    obtain ⟨vs, w₁, w₂, hvs, hmix, rfl⟩ := bind_eq_some.mp h
    rw [mixArray_meaning hsort hmix, values_meaning hsort ts hvs, Expr.meaning]

theorem values_meaning (hsort : SortsBy higherRate sort) : ∀ (es : List (Expr N))
    {vs made : List (Value N)}, (Expr.evalAll sort es).run = some (vs, made) →
      (vs.map (Value.meaning S)).sum = Expr.meaningSum S sort es
  | [], vs, made, h => by
    rw [Expr.evalAll] at h
    obtain ⟨rfl, -⟩ := pure_eq_some.mp h
    rw [Expr.meaningSum]
    rfl
  | e :: es, vs, made, h => by
    rw [Expr.evalAll] at h
    obtain ⟨v, w₁, w₂, hv, hrest, rfl⟩ := bind_eq_some.mp h
    obtain ⟨vs, w₃, w₄, hvs, hpure, rfl⟩ := bind_eq_some.mp hrest
    obtain ⟨rfl, -⟩ := pure_eq_some.mp hpure
    rw [List.map_cons, List.sum_cons, value_meaning hsort e hv, values_meaning hsort es hvs,
      Expr.meaningSum]

end

/-- **The UGens of an expression compute what it says**: an expression that is well-formed is
evaluated, and whenever one is, the value is worth what the expression is worth as it is written. -/
theorem eval_meaning (hsort : SortsBy higherRate sort) (e : Expr N) :
    (e.WellFormed → ∃ v made, (e.eval sort).run = some (v, made)) ∧
      ∀ v made, (e.eval sort).run = some (v, made) → v.meaning S = e.meaning S sort :=
  ⟨eval_returns hsort e, fun _ _ => value_meaning hsort e⟩

end Sums

theorem half_mul_two : (LuaArith.half : ℚ) * 2 = 1 := by
  show (1 / 2 : ℚ) * 2 = 1
  exact one_div_mul_cancel two_ne_zero

/-- Signals that do not change, over the rationals. -/
def steady : Semantics ℚ ℚ where
  const := id
  source _ := 3 / 4
  unary i a := if i = 0 then -a else a
  binary i a b := match i with
    | 0 => a + b
    | 1 => a - b
    | 2 => a * b
    | 4 => a / b
    | _ => a
  const_eq h := eq_of_beq h
  const_zero := rfl
  const_one := rfl
  half := half_mul_two
  const_add _ _ := rfl
  const_sub _ _ := rfl
  const_mul _ _ := rfl
  const_div _ _ := rfl
  neg _ := rfl
  add _ _ := rfl
  sub _ _ := rfl
  mul _ _ := rfl
  div_one a := div_one a

/-- `SinOsc.ar():range(200, 600)`. -/
def vibrato : Expr ℚ := .range (.ugen ⟨.ugen 0, 2, .bipolar⟩) (.number 200) (.number 600)

/-- At `3 / 4` of what it goes up to, the oscillator is seven eighths of the way through the range. -/
theorem vibrato_meaning : ∃ v made, (vibrato.eval (List.insertionSort fun a b : Value ℚ =>
      OrderDual.toDual a.rate ≤ OrderDual.toDual b.rate)).run = some (v, made) ∧
    v.meaning steady = 550 := by
  have hmeans := (eval_meaning (S := steady) sortsBy_higherRate vibrato).2
  refine ⟨_, _, rfl, ?_⟩
  rw [hmeans _ _ rfl]
  show (200 : ℚ) + (3 / 4 + 1) * (1 / 2) * (600 - 200) = 550
  norm_num

end Lua2SC.SynthDef.Signal

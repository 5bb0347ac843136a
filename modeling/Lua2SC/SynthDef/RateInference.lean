import Lua2SC.SynthDef.Mix

/-!
# The rate of an expression

An expression over given UGens and numbers makes the UGens that its operators make. They
are as they should be if none has an input of a higher rate than its own (`Covers`), and
if the result has the greatest rate of all that the expression is over (`maxRate`).

Every operator sees to it but `MulAdd:newmuladd`, which works out the rates of `mul` and
`add` and then takes the rate of `inp`. So the rates are right if and only if, at every
`madd` and `range` in the expression, neither operand is of a higher rate than the UGen in
front (`Led`); a `madd` counts only where it makes a `MulAdd`, that is, where `mul` is not the
number 1 and `add` not the number 0. When an expression is a number is a matter of its
shape (`constant`).
-/

namespace Lua2SC.SynthDef.Signal

open Lua2SC.Lua Lua2SC.Logging Lua2SC.DueQueue

variable {N : Type}

/-- An expression over UGens and numbers. -/
inductive Expr (N : Type) where
  | number (x : N)
  | ugen (u : Source)
  | arith (op : Operator) (a b : Expr N)
  | unary (k : LString) (self : Expr N)
  | binary (k : LString) (self b : Expr N)
  | BinOp (a : Expr N) (op : LString) (b : Expr N)
  | madd (self mul add : Expr N)
  | range (self lo hi : Expr N)
  | mix (t : Expr N)
  | mixArray (ts : List (Expr N))

/-- A UGen has no input of a higher rate than its own. -/
def Covers (u : Value N) : Prop := ∀ v ∈ u.inputs, v.rate ≤ u.rate

mutual

/-- The greatest rate in an expression. -/
def Expr.maxRate : Expr N → ℕ
  | .number _ => 0
  | .ugen u => u.calcrate
  | .arith _ a b => max a.maxRate b.maxRate
  | .unary _ self => self.maxRate
  | .binary _ self b => max self.maxRate b.maxRate
  | .BinOp a _ b => max a.maxRate b.maxRate
  | .madd self mul add => max self.maxRate (max mul.maxRate add.maxRate)
  | .range self lo hi => max self.maxRate (max lo.maxRate hi.maxRate)
  | .mix t => t.maxRate
  | .mixArray ts => Expr.maxRateAll ts

def Expr.maxRateAll : List (Expr N) → ℕ
  | [] => 0
  | e :: es => max e.maxRate (Expr.maxRateAll es)

end

variable [LuaArith N]

mutual

/-- Evaluating an expression, operands from left to right. -/
def Expr.eval (sort : List (Value N) → List (Value N)) : Expr N → Make N (Value N)
  | .number x => pure (.number x)
  | .ugen u => pure (.source u)
  | .arith op a b => do
    let a ← a.eval sort
    let b ← b.eval sort
    op.apply a b
  | .unary k self => do
    let self ← self.eval sort
    unaryMethod k self
  | .binary k self b => do
    let self ← self.eval sort
    let b ← b.eval sort
    binaryMethod k self b
  | .BinOp a op b => do
    let a ← a.eval sort
    let b ← b.eval sort
    Signal.BinOp a op b
  | .madd self mul add => do
    let self ← self.eval sort
    let mul ← mul.eval sort
    let add ← add.eval sort
    Signal.madd self mul add
  | .range self lo hi => do
    let self ← self.eval sort
    let lo ← lo.eval sort
    let hi ← hi.eval sort
    Signal.range self (some lo) (some hi)
  | .mix t => do
    let t ← t.eval sort
    Mix sort (.single t)
  | .mixArray ts => do
    let ts ← Expr.evalAll sort ts
    Mix sort (.array ts)

def Expr.evalAll (sort : List (Value N) → List (Value N)) : List (Expr N) → Make N (List (Value N))
  | [] => pure []
  | e :: es => do
    let v ← e.eval sort
    let vs ← Expr.evalAll sort es
    return v :: vs

end

mutual

/-- The number an expression of numbers comes to. -/
def Expr.constant : Expr N → Option N
  | .number x => some x
  | .arith op a b => do
    let x ← a.constant
    let y ← b.constant
    return op.arith x y
  -- a mix of three numbers fails
  | .mixArray ts => do
    let xs ← Expr.constantAll ts
    if xs.length < 3 then return 0 + xs.foldl (· + ·) 0 else none
  | .ugen _ => none
  | .unary _ _ => none
  | .binary _ _ _ => none
  | .BinOp _ _ _ => none
  | .madd _ _ _ => none
  | .range _ _ _ => none
  | .mix _ => none

def Expr.constantAll : List (Expr N) → Option (List N)
  | [] => some []
  | e :: es => do
    let x ← e.constant
    let xs ← Expr.constantAll es
    return x :: xs

end

/-- The expression is this number. -/
def Expr.isNumber (e : Expr N) (x : N) : Bool := e.constant.any (· == x)

mutual

/-- Wherever `madd` or `range` makes a `MulAdd`, the UGen in front has the greatest rate. -/
def Expr.Led : Expr N → Prop
  | .number _ => True
  | .ugen _ => True
  | .arith _ a b => a.Led ∧ b.Led
  | .unary _ self => self.Led
  | .binary _ self b => self.Led ∧ b.Led
  | .BinOp a _ b => a.Led ∧ b.Led
  | .madd self mul add => self.Led ∧ mul.Led ∧ add.Led ∧
      (add.isNumber 0 = false → mul.isNumber 1 = false →
        mul.maxRate ≤ self.maxRate ∧ add.maxRate ≤ self.maxRate)
  | .range self lo hi => self.Led ∧ lo.Led ∧ hi.Led ∧
      lo.maxRate ≤ self.maxRate ∧ hi.maxRate ≤ self.maxRate
  | .mix t => t.Led
  | .mixArray ts => Expr.LedAll ts

def Expr.LedAll : List (Expr N) → Prop
  | [] => True
  | e :: es => e.Led ∧ Expr.LedAll es

end

/-! ## What an operator makes -/

section Rates

omit [LuaArith N]

/-- The result has this rate, and what was made is as it should be. -/
structure Rated (rate : ℕ) (v : Value N) (made : List (Value N)) : Prop where
  rate : v.rate = rate
  covers : ∀ u ∈ made, Covers u

theorem Rated.kept (v : Value N) : Rated v.rate v [] := ⟨rfl, fun u hu => by cases hu⟩

theorem Rated.node {v : Value N} {rate : ℕ} (hrate : v.rate = rate)
    (h : ∀ x ∈ v.inputs, x.rate ≤ rate) : Rated rate v [v] := by
  refine ⟨hrate, fun u hu => ?_⟩
  rw [List.mem_singleton.mp hu]
  exact fun x hx => hrate ▸ h x hx

theorem newBinary_rated {selector : LString} {a b v : Value N} {made : List (Value N)}
    (h : (newBinary selector a b).run = some (v, made)) : Rated (max a.rate b.rate) v made := by
  obtain ⟨i, rfl, rfl⟩ := newBinary_eq_some h
  refine Rated.node rfl (List.forall_mem_cons.mpr ⟨le_max_left _ _, ?_⟩)
  exact List.forall_mem_cons.mpr ⟨le_max_right _ _, fun x hx => by cases hx⟩

theorem newUnary_rated {selector : LString} {a v : Value N} {made : List (Value N)}
    (h : (newUnary selector a).run = some (v, made)) : Rated a.rate v made := by
  obtain ⟨i, rfl, rfl⟩ := newUnary_eq_some h
  exact Rated.node rfl (List.forall_mem_cons.mpr ⟨le_rfl, fun x hx => by cases hx⟩)

end Rates

theorem number_of_equals {a : Value N} {x : N} (h : a.equals x = true) : ∃ y, a = .number y := by
  cases a with
  | number y => exact ⟨y, rfl⟩
  | source | made => cases h

/-- What a metamethod can do: keep an operand if the other is a number, negate the second,
or make a `BinaryOpUGen` of both. -/
theorem event_cases {op : Operator} {a b v : Value N} {made : List (Value N)}
    (h : (op.event a b).run = some (v, made)) :
    ((∃ y, b = .number y) ∧ v = a ∧ made = []) ∨ ((∃ x, a = .number x) ∧ v = b ∧ made = []) ∨
      ((∃ x, a = .number x) ∧ (newUnary (ascii "neg") b).run = some (v, made)) ∨
        ∃ selector, (newBinary selector a b).run = some (v, made) := by
  cases op with
  | add =>
    simp only [Operator.event, addEvent] at h
    split at h
    next hb => exact .inl ⟨number_of_equals hb, pure_eq_some.mp h⟩
    next =>
      split at h
      next ha => exact .inr (.inl ⟨number_of_equals ha, pure_eq_some.mp h⟩)
      next => exact .inr (.inr (.inr ⟨_, h⟩))
  | sub =>
    simp only [Operator.event, subEvent] at h
    split at h
    next hb => exact .inl ⟨number_of_equals hb, pure_eq_some.mp h⟩
    next =>
      split at h
      next ha => exact .inr (.inr (.inl ⟨number_of_equals ha, h⟩))
      next => exact .inr (.inr (.inr ⟨_, h⟩))
  | mul =>
    simp only [Operator.event, mulEvent] at h
    split at h
    next hb => exact .inl ⟨number_of_equals hb, pure_eq_some.mp h⟩
    next =>
      split at h
      next ha => exact .inr (.inl ⟨number_of_equals ha, pure_eq_some.mp h⟩)
      next => exact .inr (.inr (.inr ⟨_, h⟩))
  | div =>
    simp only [Operator.event, divEvent] at h
    split at h
    next hb => exact .inl ⟨number_of_equals hb, pure_eq_some.mp h⟩
    next => exact .inr (.inr (.inr ⟨_, h⟩))

theorem apply_rated {op : Operator} {a b v : Value N} {made : List (Value N)}
    (h : (op.apply a b).run = some (v, made)) : Rated (max a.rate b.rate) v made := by
  unfold Operator.apply at h
  split at h
  next =>
    obtain ⟨rfl, rfl⟩ := pure_eq_some.mp h
    exact .kept (.number _)
  next =>
    obtain ⟨⟨y, rfl⟩, rfl, rfl⟩ | ⟨⟨x, rfl⟩, rfl, rfl⟩ | ⟨⟨x, rfl⟩, hneg⟩ | ⟨selector, hbin⟩ :=
      event_cases h
    · rw [show max v.rate (Value.number y).rate = v.rate from max_eq_left (Nat.zero_le _)]
      exact .kept v
    · rw [show max (Value.number x).rate v.rate = v.rate from max_eq_right (Nat.zero_le _)]
      exact .kept v
    · rw [show max (Value.number x).rate b.rate = b.rate from max_eq_right (Nat.zero_le _)]
      exact newUnary_rated hneg
    · exact newBinary_rated hbin

/-- Numbers come to a number, and anything else to a UGen. -/
theorem apply_number? {op : Operator} {a b v : Value N} {made : List (Value N)}
    (h : (op.apply a b).run = some (v, made)) :
    v.number? = a.number?.bind fun x => b.number?.map fun y => op.arith x y := by
  unfold Operator.apply at h
  split at h
  next =>
    obtain ⟨rfl, rfl⟩ := pure_eq_some.mp h
    rfl
  next hnot =>
    have hugen : (a.number?.bind fun x => b.number?.map fun y => op.arith x y) = none := by
      cases a with
      | number x =>
        cases b with
        | number y => exact absurd rfl (hnot x y rfl)
        | source | made => rfl
      | source | made => rfl
    rw [hugen]
    obtain ⟨⟨y, rfl⟩, rfl, rfl⟩ | ⟨⟨x, rfl⟩, rfl, rfl⟩ | ⟨⟨x, rfl⟩, hneg⟩ | ⟨selector, hbin⟩ :=
      event_cases h
    · cases v with
      | number x => cases hugen
      | source | made => rfl
    · cases v with
      | number y => cases hugen
      | source | made => rfl
    · obtain ⟨i, rfl, -⟩ := newUnary_eq_some hneg
      rfl
    · obtain ⟨i, rfl, -⟩ := newBinary_eq_some hbin
      rfl

/-! ## `Mix` -/

section TopRate

omit [LuaArith N]

/-- The greatest of the rates. -/
def topRate : List (Value N) → ℕ
  | [] => 0
  | t :: ts => max t.rate (topRate ts)

theorem topRate_append (ts us : List (Value N)) :
    topRate (ts ++ us) = max (topRate ts) (topRate us) := by
  induction ts with
  | nil => exact (max_eq_right (Nat.zero_le _)).symm
  | cons t ts ih => rw [List.cons_append, topRate, topRate, ih, max_assoc]

theorem topRate_le {ts : List (Value N)} {n : ℕ} : topRate ts ≤ n ↔ ∀ t ∈ ts, t.rate ≤ n := by
  induction ts with
  | nil => exact ⟨fun _ t ht => (by cases ht), fun _ => Nat.zero_le n⟩
  | cons t ts ih => rw [topRate, max_le_iff, List.forall_mem_cons, ih]

theorem rate_le_topRate {ts : List (Value N)} {t : Value N} (h : t ∈ ts) : t.rate ≤ topRate ts :=
  topRate_le.mp le_rfl t h

/-- `Sum3` and `Sum4` take the first rate of the sorted inputs, which is the greatest. -/
theorem sumNew1_rated {sort : List (Value N) → List (Value N)} (hsort : SortsBy higherRate sort)
    {cls : OpClass} {ts : List (Value N)} {v : Value N} {made : List (Value N)}
    (h : (sumNew1 sort cls ts).run = some (v, made)) :
    Rated (topRate ts) v made ∧ v.number? = none := by
  obtain ⟨rates, w₁, w₂, hrates, hhead, rfl⟩ := bind_eq_some.mp h
  obtain ⟨-, rfl⟩ := ofOption_eq_some.mp hrates
  obtain ⟨rate, w₃, w₄, hindex, hnew, rfl⟩ := bind_eq_some.mp hhead
  obtain ⟨hrate, rfl⟩ := ofOption_eq_some.mp hindex
  obtain ⟨rfl, rfl⟩ := new1_eq_some.mp hnew
  obtain ⟨hperm, hordered⟩ := hsort ts
  obtain ⟨first, hfirst, hcal⟩ := Option.bind_eq_some_iff.mp hrate
  obtain ⟨rest, hsorted⟩ := List.head?_eq_some_iff.mp hfirst
  have hfirstrate : first.rate = rate := by rw [Value.rate, hcal, Option.getD_some]
  rw [hsorted] at hperm hordered
  have hle : ∀ x ∈ first :: rest, x.rate ≤ rate := by
    rw [← hfirstrate]
    refine List.forall_mem_cons.mpr ⟨le_rfl, fun x hx => ?_⟩
    exact not_lt.mp (of_decide_eq_false (List.rel_of_pairwise_cons hordered hx))
  have htop : topRate ts = rate :=
    le_antisymm (topRate_le.mpr fun x hx => hle x (hperm.symm.subset hx))
      (hfirstrate ▸ rate_le_topRate (hperm.subset List.mem_cons_self))
  refine ⟨Rated.node htop.symm ?_, rfl⟩
  show ∀ x ∈ sort ts, x.rate ≤ topRate ts
  rw [hsorted, htop]
  exact hle

end TopRate

theorem foldlM_add_rated {ts : List (Value N)} :
    ∀ {ac v : Value N} {made : List (Value N)},
      (ts.foldlM (fun ac v => Operator.add.apply ac v) ac).run = some (v, made) →
        Rated (max ac.rate (topRate ts)) v made := by
  induction ts with
  | nil =>
    intro ac v made h
    obtain ⟨rfl, rfl⟩ := pure_eq_some.mp h
    rw [topRate, max_eq_left (Nat.zero_le _)]
    exact .kept v
  | cons t ts ih =>
    intro ac v made h
    rw [List.foldlM_cons] at h
    obtain ⟨u, w₁, w₂, hadd, hfold, rfl⟩ := bind_eq_some.mp h
    have hu := apply_rated hadd
    have hv := ih hfold
    rw [topRate, ← max_assoc, ← hu.rate]
    exact ⟨hv.rate, List.forall_mem_append.mpr ⟨hu.covers, hv.covers⟩⟩

theorem mixClump_rated {sort : List (Value N) → List (Value N)} (hsort : SortsBy higherRate sort)
    {t : List (Value N)} {v : Value N} {made : List (Value N)}
    (h : (mixClump sort t).run = some (v, made)) : Rated (topRate t) v made := by
  unfold mixClump at h
  split at h
  next => exact (sumNew1_rated hsort h).1
  next =>
    split at h
    next => exact (sumNew1_rated hsort h).1
    next =>
      have hsum := foldlM_add_rated h
      rwa [show max (Value.number (0 : N)).rate (topRate t) = topRate t from
        max_eq_right (Nat.zero_le _)] at hsum

theorem mixArray_rated {sort : List (Value N) → List (Value N)} (hsort : SortsBy higherRate sort)
    {t : List (Value N)} {v : Value N} {made : List (Value N)}
    (h : (mixArray sort t).run = some (v, made)) : Rated (topRate t) v made := by
  refine mixArray_rule (R := fun t v made => Rated (topRate t) v made)
    (fun t v made => mixClump_rated hsort) ?_ h
  intro calls hcalls hfilled v made hv
  have htop : topRate (calls.map Call.result) = topRate (calls.map Call.input).flatten := by
    clear hv hfilled
    induction calls with
    | nil => rfl
    | cons c calls ih =>
      rw [List.map_cons, List.map_cons, List.flatten_cons, topRate, topRate_append,
        (hcalls c List.mem_cons_self).rate]
      rw [ih fun d hd => hcalls d (List.mem_cons_of_mem c hd)]
  refine ⟨hv.rate.trans htop, List.forall_mem_append.mpr ⟨fun u hu => ?_, hv.covers⟩⟩
  obtain ⟨logged, hlogged, hu⟩ := List.mem_flatten.mp hu
  obtain ⟨c, hc, rfl⟩ := List.mem_map.mp hlogged
  exact (hcalls c hc).covers u hu

/-! ### When a mix is a number -/

/-- Adding up is a number only of numbers. -/
theorem foldlM_add_number? {ts : List (Value N)} :
    ∀ {ac v : Value N} {made : List (Value N)},
      (ts.foldlM (fun ac v => Operator.add.apply ac v) ac).run = some (v, made) →
        v.number? = ac.number?.bind fun x =>
          (ts.mapM Value.number?).map fun xs => xs.foldl (· + ·) x := by
  induction ts with
  | nil =>
    intro ac v made h
    obtain ⟨rfl, rfl⟩ := pure_eq_some.mp h
    cases v with
    | number | source | made => rfl
  | cons t ts ih =>
    intro ac v made h
    rw [List.foldlM_cons] at h
    obtain ⟨u, w₁, w₂, hadd, hfold, rfl⟩ := bind_eq_some.mp h
    rw [ih hfold, apply_number? hadd, List.mapM_cons]
    cases ac with
    | source | made => rfl
    | number x =>
      cases t with
      | source | made => rfl
      | number y =>
        show (ts.mapM Value.number?).map _ = ((ts.mapM Value.number?).bind _).map _
        cases ts.mapM Value.number? with
        | none => rfl
        | some xs => rfl

omit [LuaArith N] in
theorem mapM_number?_ugen {ts : List (Value N)} {t : Value N} (ht : t ∈ ts)
    (hugen : t.number? = none) : ts.mapM Value.number? = none := by
  induction ts with
  | nil => cases ht
  | cons u ts ih =>
    rw [List.mapM_cons]
    rcases List.mem_cons.mp ht with rfl | ht
    · rw [hugen]
      rfl
    · rw [ih ht]
      cases u.number? <;> rfl

omit [LuaArith N] in
theorem mapM_number?_length {ts : List (Value N)} {xs : List N}
    (h : ts.mapM Value.number? = some xs) : xs.length = ts.length := by
  induction ts generalizing xs with
  | nil =>
    cases h
    rfl
  | cons t ts ih =>
    rw [List.mapM_cons] at h
    obtain ⟨x, hx, h⟩ := Option.bind_eq_some_iff.mp h
    obtain ⟨ys, hys, h⟩ := Option.bind_eq_some_iff.mp h
    cases h
    rw [List.length_cons, List.length_cons, ih hys]

/-- A mix of three or more is a UGen. -/
theorem mixArray_ugen {sort : List (Value N) → List (Value N)} (hsort : SortsBy higherRate sort)
    {t : List (Value N)} {v : Value N} {made : List (Value N)}
    (h : (mixArray sort t).run = some (v, made)) (ht : 3 ≤ t.length) : v.number? = none := by
  induction hn : t.length using Nat.strong_induction_on generalizing t v made with
  | _ n ih =>
    rw [mixArray] at h
    obtain ⟨mixed, w₁, w₂, heach, hrest, rfl⟩ := bind_eq_some.mp h
    split at hrest
    next => exact (sumNew1_rated hsort hrest).2
    next h3 =>
      split at hrest
      next hlt =>
        obtain ⟨calls, hin, hres, -, hcalls⟩ := each_eq_some heach
        obtain ⟨c, hc, hclen⟩ := exists_long_clump (by omega : 3 ≤ 4) ht (by omega)
        rw [← hin] at hc
        obtain ⟨call, hcall, rfl⟩ := List.mem_map.mp hc
        have hugen : call.result.number? = none := by
          have hrun := hcalls call hcall
          unfold mixClump at hrun
          split at hrun
          next => exact (sumNew1_rated hsort hrun).2
          next =>
            have hle := clump_length_le (by omega : 0 < 4) (hin ▸ hc)
            rw [if_pos (by omega)] at hrun
            exact (sumNew1_rated hsort hrun).2
        rw [foldlM_add_number? hrest, ← hres,
          mapM_number?_ugen (List.mem_map_of_mem hcall) hugen]
        rfl
      next hlt =>
        have hlen := mixed.2
        have hshorter := @clump_length_lt _ 4 (by omega) t (by omega)
        exact ih _ (by omega) hrest (by omega) rfl

theorem mixArray_number? {sort : List (Value N) → List (Value N)} (hsort : SortsBy higherRate sort)
    {t : List (Value N)} {v : Value N} {made : List (Value N)}
    (h : (mixArray sort t).run = some (v, made)) :
    v.number? = (t.mapM Value.number?).bind fun xs =>
      if xs.length < 3 then some (0 + xs.foldl (· + ·) 0) else none := by
  by_cases ht : 3 ≤ t.length
  · rw [mixArray_ugen hsort h ht]
    cases hxs : t.mapM Value.number? with
    | none => rfl
    | some xs =>
      rw [Option.bind_some, if_neg (by rw [mapM_number?_length hxs]; omega)]
  · rw [mixArray, clump_of_le (by omega) (by omega)] at h
    obtain ⟨mixed, w₁, w₂, heach, hrest, rfl⟩ := bind_eq_some.mp h
    obtain ⟨calls, hin, hres, -, hcalls⟩ := each_eq_some heach
    obtain ⟨call, rfl, hinput⟩ := List.map_eq_singleton_iff.mp hin
    have hsum := hcalls call (List.mem_singleton_self call)
    rw [hinput, mixClump, if_neg (by omega), if_neg (by omega)] at hsum
    have hlen : mixed.1.length = 1 := mixed.2
    rw [if_neg (by omega), dif_pos (by omega), ← hres] at hrest
    have hv := foldlM_add_number? hrest
    rw [List.map_singleton, List.mapM_cons, List.mapM_nil, foldlM_add_number? hsum] at hv
    rw [hv]
    cases hxs : t.mapM Value.number? with
    | none => rfl
    | some xs =>
      rw [Option.bind_some, if_pos (by rw [mapM_number?_length hxs]; omega)]
      rfl

/-! ## `madd` and `range` -/

/-- What was made is as it should be if and only if `ok`, and then the rate is right. -/
structure Judged (ok : Prop) (rate : ℕ) (v : Value N) (made : List (Value N)) : Prop where
  covers : (∀ u ∈ made, Covers u) ↔ ok
  rate : ok → v.rate = rate

omit [LuaArith N] in
theorem Rated.judged {rate : ℕ} {v : Value N} {made : List (Value N)} (h : Rated rate v made)
    {ok : Prop} (hok : ok) : Judged ok rate v made :=
  ⟨iff_of_true h.covers hok, fun _ => h.rate⟩

omit [LuaArith N] in
theorem newmuladd_judged {inp mul add v : Value N} {made : List (Value N)}
    (h : (newmuladd inp mul add).run = some (v, made)) : v.number? = none ∧
      Judged (mul.rate ≤ inp.rate ∧ add.rate ≤ inp.rate) inp.rate v made := by
  obtain ⟨rfl, rfl⟩ := newmuladd_eq_some h
  refine ⟨rfl, ⟨fun hcovers => ?_, fun ⟨hmul, hadd⟩ u hu => ?_⟩, fun _ => rfl⟩
  · have hinputs := hcovers _ (List.mem_singleton_self _)
    exact ⟨hinputs mul (List.mem_cons_of_mem _ List.mem_cons_self),
      hinputs add (List.mem_cons_of_mem _ (List.mem_cons_of_mem _ List.mem_cons_self))⟩
  · rw [List.mem_singleton.mp hu]
    exact List.forall_mem_cons.mpr ⟨le_rfl, List.forall_mem_cons.mpr ⟨hmul,
      List.forall_mem_cons.mpr ⟨hadd, fun x hx => by cases hx⟩⟩⟩

omit [LuaArith N] in
theorem number?_of_calcrate {a : Value N} {rate : ℕ} (h : a.calcrate = some rate) :
    a.number? = none := by
  cases a with
  | number => cases h
  | source | made => rfl

/-- Of a UGen the operators make a UGen. -/
theorem apply_ugen {op : Operator} {a b v : Value N} {made : List (Value N)}
    (ha : a.number? = none) (h : (op.apply a b).run = some (v, made)) : v.number? = none := by
  rw [apply_number? h, ha]
  rfl

theorem rate_of_equals {a : Value N} {x : N} (h : a.equals x = true) : a.rate = 0 := by
  obtain ⟨y, rfl⟩ := number_of_equals h
  rfl

theorem madd_judged {self mul add v : Value N} {made : List (Value N)}
    (h : (madd self mul add).run = some (v, made)) : v.number? = none ∧
      Judged (add.equals 0 = false → mul.equals 1 = false →
        mul.rate ≤ self.rate ∧ add.rate ≤ self.rate)
        (max self.rate (max mul.rate add.rate)) v made := by
  obtain ⟨rate, w₁, w₂, hindex, hrest, rfl⟩ := bind_eq_some.mp h
  obtain ⟨hrate, rfl⟩ := ofOption_eq_some.mp hindex
  have hself := number?_of_calcrate hrate
  rw [List.nil_append]
  split at hrest
  next hadd =>
    rw [rate_of_equals hadd, max_eq_left (Nat.zero_le _)]
    have hok : add.equals 0 = false → mul.equals 1 = false → mul.rate ≤ self.rate ∧ 0 ≤ self.rate :=
      fun hfalse => absurd hadd (Bool.eq_false_iff.mp hfalse)
    split at hrest
    next hmul =>
      obtain ⟨rfl, rfl⟩ := pure_eq_some.mp hrest
      rw [rate_of_equals hmul] at hok ⊢
      rw [max_eq_left (Nat.zero_le _)]
      exact ⟨hself, (Rated.kept v).judged hok⟩
    next => exact ⟨apply_ugen hself hrest, (apply_rated hrest).judged hok⟩
  next hadd =>
    split at hrest
    next hmul =>
      rw [rate_of_equals hmul, max_eq_right (Nat.zero_le add.rate)]
      exact ⟨apply_ugen hself hrest, (apply_rated hrest).judged
        fun _ hfalse => absurd hmul (Bool.eq_false_iff.mp hfalse)⟩
    next hmul =>
      obtain ⟨hugen, hjudged⟩ := newmuladd_judged hrest
      refine ⟨hugen, ?_, fun hok => ?_⟩
      · rw [hjudged.covers]
        exact ⟨fun hle _ _ => hle,
          fun hok => hok (Bool.eq_false_iff.mpr hadd) (Bool.eq_false_iff.mpr hmul)⟩
      · have hle := hok (Bool.eq_false_iff.mpr hadd) (Bool.eq_false_iff.mpr hmul)
        rw [hjudged.rate hle, max_eq_left (max_le hle.1 hle.2)]

theorem range_judged {self lo hi v : Value N} {made : List (Value N)}
    (h : (range self (some lo) (some hi)).run = some (v, made)) : v.number? = none ∧
      Judged (lo.rate ≤ self.rate ∧ hi.rate ≤ self.rate)
        (max self.rate (max lo.rate hi.rate)) v made := by
  obtain ⟨signalRange, w₁, w₂, hindex, hrest, rfl⟩ := bind_eq_some.mp h
  obtain ⟨-, rfl⟩ := ofOption_eq_some.mp hindex
  rw [List.nil_append]
  have hjoin : ∀ {mul add : Value N} {made₁ made₂ : List (Value N)},
      (∀ u ∈ made₁, Covers u) → (newmuladd self mul add).run = some (v, made₂) →
        (mul.rate ≤ self.rate ∧ add.rate ≤ self.rate ↔ lo.rate ≤ self.rate ∧ hi.rate ≤ self.rate) →
          v.number? = none ∧ Judged (lo.rate ≤ self.rate ∧ hi.rate ≤ self.rate)
            (max self.rate (max lo.rate hi.rate)) v (made₁ ++ made₂) := by
    intro mul add made₁ made₂ hcovers hnew hiff
    obtain ⟨hugen, hjudged⟩ := newmuladd_judged hnew
    refine ⟨hugen, ?_, fun hok => ?_⟩
    · rw [List.forall_mem_append, hjudged.covers, hiff]
      exact and_iff_right hcovers
    · rw [hjudged.rate (hiff.mpr hok), max_eq_left (max_le hok.1 hok.2)]
  cases signalRange with
  | bipolar =>
    obtain ⟨diff, w₁, w₂, hdiff, hthen, rfl⟩ := bind_eq_some.mp hrest
    obtain ⟨mul, w₃, w₄, hprod, hlast, rfl⟩ := bind_eq_some.mp hthen
    obtain ⟨add, w₅, w₆, hsum, hnew, rfl⟩ := bind_eq_some.mp hlast
    have hsub := apply_rated hdiff
    have hmul := apply_rated hprod
    have hadd := apply_rated hsum
    rw [← List.append_assoc, ← List.append_assoc]
    refine hjoin ?_ hnew ?_
    · exact List.forall_mem_append.mpr ⟨List.forall_mem_append.mpr ⟨hsub.covers, hmul.covers⟩,
        hadd.covers⟩
    · rw [hadd.rate, hmul.rate, hsub.rate]
      simp only [Option.getD_some]
      have hhalf : (Value.number (LuaArith.half : N)).rate = 0 := rfl
      rw [hhalf]
      omega
  | unipolar =>
    obtain ⟨mul, w₁, w₂, hdiff, hnew, rfl⟩ := bind_eq_some.mp hrest
    have hsub := apply_rated hdiff
    refine hjoin hsub.covers hnew ?_
    rw [hsub.rate]
    simp only [Option.getD_some]
    omega

/-! ## Expressions -/

/-- An expression and what came of it: whether it is a number, and the rates. -/
structure Agrees (e : Expr N) (v : Value N) (made : List (Value N)) : Prop where
  number : v.number? = e.constant
  judged : Judged e.Led e.maxRate v made

/-- The same of a list of expressions. -/
structure AgreesAll (es : List (Expr N)) (vs made : List (Value N)) : Prop where
  numbers : vs.mapM Value.number? = Expr.constantAll es
  covers : (∀ u ∈ made, Covers u) ↔ Expr.LedAll es
  rates : Expr.LedAll es → topRate vs = Expr.maxRateAll es

omit [LuaArith N] in
/-- An operand is evaluated, then the rest, which `Q` and `r` judge by the operand's value
and `Q'` and `r'` by its expression. -/
theorem Judged.after {P Q Q' : Prop} {rate r r' : ℕ} {a v : Value N} {w made : List (Value N)}
    (ha : Judged P rate a w) (h : Judged Q r v made) (hiff : a.rate = rate → (Q ↔ Q'))
    (hrate : a.rate = rate → r = r') : Judged (P ∧ Q') r' v (w ++ made) := by
  refine ⟨?_, fun ⟨hp, hq⟩ => ?_⟩
  · rw [List.forall_mem_append, ha.covers, h.covers]
    exact and_congr_right fun hp => hiff (ha.rate hp)
  · have heq := ha.rate hp
    exact (h.rate ((hiff heq).mpr hq)).trans (hrate heq)

omit [LuaArith N] in
/-- The last operand of an operator that is always right. -/
theorem Judged.rated {P : Prop} {rate r r' : ℕ} {a v : Value N} {w made : List (Value N)}
    (ha : Judged P rate a w) (h : Rated r v made) (hrate : a.rate = rate → r = r') :
    Judged P r' v (w ++ made) := by
  have hafter := ha.after (h.judged trivial) (fun _ => Iff.rfl) hrate
  rwa [and_true] at hafter

omit [LuaArith N] in
/-- Two operands of an operator that is always right. -/
theorem Judged.pair {P Q : Prop} {rate rate' : ℕ} {a b v : Value N} {w w' made : List (Value N)}
    (ha : Judged P rate a w) (hb : Judged Q rate' b w') (h : Rated (max a.rate b.rate) v made) :
    Judged (P ∧ Q) (max rate rate') v (w ++ (w' ++ made)) :=
  ha.after (hb.rated h fun heq => congrArg (max a.rate) heq) (fun _ => Iff.rfl)
    fun heq => congrArg (max · rate') heq

theorem equals_eq_isNumber {e : Expr N} {v : Value N} (h : v.number? = e.constant) (x : N) :
    v.equals x = e.isNumber x := by
  rw [Expr.isNumber, ← h]
  cases v with
  | number | source | made => rfl

variable {sort : List (Value N) → List (Value N)}

mutual

/-- By induction on the expression: a number is what `constant` says, and what was made is
as it should be if and only if the expression is `Led`. -/
theorem eval_agrees (hsort : SortsBy higherRate sort) : ∀ (e : Expr N) {v : Value N}
    {made : List (Value N)}, (e.eval sort).run = some (v, made) → Agrees e v made
  | .number x, v, made, h => by
    rw [Expr.eval] at h
    obtain ⟨rfl, rfl⟩ := pure_eq_some.mp h
    exact ⟨rfl, (Rated.kept (.number x)).judged trivial⟩
  | .ugen u, v, made, h => by
    rw [Expr.eval] at h
    obtain ⟨rfl, rfl⟩ := pure_eq_some.mp h
    exact ⟨rfl, (Rated.kept (.source u)).judged trivial⟩
  | .arith op a b, v, made, h => by
    rw [Expr.eval] at h
    obtain ⟨va, w₁, w₂, hva, hrest, rfl⟩ := bind_eq_some.mp h
    obtain ⟨vb, w₃, w₄, hvb, hop, rfl⟩ := bind_eq_some.mp hrest
    have ha := eval_agrees hsort a hva
    have hb := eval_agrees hsort b hvb
    refine ⟨?_, ha.judged.pair hb.judged (apply_rated hop)⟩
    rw [apply_number? hop, ha.number, hb.number, Expr.constant]
    cases a.constant <;> cases b.constant <;> rfl
  | .unary k self, v, made, h => by
    rw [Expr.eval] at h
    obtain ⟨va, w₁, w₂, hva, hrest, rfl⟩ := bind_eq_some.mp h
    obtain ⟨_, w₃, w₄, hindex, hop, rfl⟩ := bind_eq_some.mp hrest
    obtain ⟨-, rfl⟩ := ofOption_eq_some.mp hindex
    have ha := eval_agrees hsort self hva
    refine ⟨?_, ha.judged.rated (newUnary_rated hop) id⟩
    obtain ⟨i, rfl, -⟩ := newUnary_eq_some hop
    rw [Expr.constant]
    rfl
  | .binary k self b, v, made, h => by
    rw [Expr.eval] at h
    obtain ⟨va, w₁, w₂, hva, hrest, rfl⟩ := bind_eq_some.mp h
    obtain ⟨vb, w₃, w₄, hvb, hmethod, rfl⟩ := bind_eq_some.mp hrest
    obtain ⟨_, w₅, w₆, hindex, hop, rfl⟩ := bind_eq_some.mp hmethod
    obtain ⟨-, rfl⟩ := ofOption_eq_some.mp hindex
    have ha := eval_agrees hsort self hva
    have hb := eval_agrees hsort b hvb
    refine ⟨?_, ha.judged.pair hb.judged (newBinary_rated hop)⟩
    obtain ⟨i, rfl, -⟩ := newBinary_eq_some hop
    rw [Expr.constant]
    rfl
  | .BinOp a op b, v, made, h => by
    rw [Expr.eval] at h
    obtain ⟨va, w₁, w₂, hva, hrest, rfl⟩ := bind_eq_some.mp h
    obtain ⟨vb, w₃, w₄, hvb, hop, rfl⟩ := bind_eq_some.mp hrest
    have ha := eval_agrees hsort a hva
    have hb := eval_agrees hsort b hvb
    refine ⟨?_, ha.judged.pair hb.judged (newBinary_rated hop)⟩
    obtain ⟨i, rfl, -⟩ := newBinary_eq_some hop
    rw [Expr.constant]
    rfl
  | .madd self mul add, v, made, h => by
    rw [Expr.eval] at h
    obtain ⟨vs, w₁, w₂, hvs, hrest, rfl⟩ := bind_eq_some.mp h
    obtain ⟨vm, w₃, w₄, hvm, hthen, rfl⟩ := bind_eq_some.mp hrest
    obtain ⟨va, w₅, w₆, hva, hmadd, rfl⟩ := bind_eq_some.mp hthen
    have hs := eval_agrees hsort self hvs
    have hm := eval_agrees hsort mul hvm
    have ha := eval_agrees hsort add hva
    obtain ⟨hugen, hv⟩ := madd_judged hmadd
    rw [equals_eq_isNumber ha.number, equals_eq_isNumber hm.number] at hv
    refine ⟨by rw [hugen, Expr.constant], ?_⟩
    have hadd : Judged (add.Led ∧ (add.isNumber 0 = false → mul.isNumber 1 = false →
        vm.rate ≤ vs.rate ∧ add.maxRate ≤ vs.rate))
        (max vs.rate (max vm.rate add.maxRate)) v (w₅ ++ w₆) :=
      ha.judged.after hv (fun heq => by rw [heq]) fun heq => by rw [heq]
    have hmul : Judged (mul.Led ∧ add.Led ∧ (add.isNumber 0 = false → mul.isNumber 1 = false →
        mul.maxRate ≤ vs.rate ∧ add.maxRate ≤ vs.rate))
        (max vs.rate (max mul.maxRate add.maxRate)) v (w₃ ++ (w₅ ++ w₆)) :=
      hm.judged.after hadd (fun heq => by rw [heq]) fun heq => by rw [heq]
    rw [Expr.Led, Expr.maxRate]
    exact hs.judged.after hmul (fun heq => by rw [heq]) fun heq => by rw [heq]
  | .range self lo hi, v, made, h => by
    rw [Expr.eval] at h
    obtain ⟨vs, w₁, w₂, hvs, hrest, rfl⟩ := bind_eq_some.mp h
    obtain ⟨vl, w₃, w₄, hvl, hthen, rfl⟩ := bind_eq_some.mp hrest
    obtain ⟨vh, w₅, w₆, hvh, hrange, rfl⟩ := bind_eq_some.mp hthen
    have hs := eval_agrees hsort self hvs
    have hl := eval_agrees hsort lo hvl
    have hh := eval_agrees hsort hi hvh
    obtain ⟨hugen, hv⟩ := range_judged hrange
    refine ⟨by rw [hugen, Expr.constant], ?_⟩
    have hhi : Judged (hi.Led ∧ vl.rate ≤ vs.rate ∧ hi.maxRate ≤ vs.rate)
        (max vs.rate (max vl.rate hi.maxRate)) v (w₅ ++ w₆) :=
      hh.judged.after hv (fun heq => by rw [heq]) fun heq => by rw [heq]
    have hlo : Judged (lo.Led ∧ hi.Led ∧ lo.maxRate ≤ vs.rate ∧ hi.maxRate ≤ vs.rate)
        (max vs.rate (max lo.maxRate hi.maxRate)) v (w₃ ++ (w₅ ++ w₆)) :=
      hl.judged.after hhi (fun heq => by rw [heq]) fun heq => by rw [heq]
    rw [Expr.Led, Expr.maxRate]
    exact hs.judged.after hlo (fun heq => by rw [heq]) fun heq => by rw [heq]
  | .mix t, v, made, h => by
    rw [Expr.eval] at h
    obtain ⟨vt, w₁, w₂, hvt, hrest, rfl⟩ := bind_eq_some.mp h
    obtain ⟨_, w₃, w₄, hindex, hpure, rfl⟩ := bind_eq_some.mp hrest
    obtain ⟨hrate, rfl⟩ := ofOption_eq_some.mp hindex
    obtain ⟨rfl, rfl⟩ := pure_eq_some.mp hpure
    have ht := eval_agrees hsort t hvt
    refine ⟨by rw [number?_of_calcrate hrate, Expr.constant], ?_⟩
    exact ht.judged.rated (.kept v) id
  | .mixArray ts, v, made, h => by
    rw [Expr.eval] at h
    obtain ⟨vs, w₁, w₂, hvs, hmix, rfl⟩ := bind_eq_some.mp h
    have hts := evalAll_agrees hsort ts hvs
    have hrated := mixArray_rated hsort hmix
    refine ⟨?_, ?_, fun hled => hrated.rate.trans (hts.rates hled)⟩
    · rw [mixArray_number? hsort hmix, hts.numbers, Expr.constant]
      rfl
    · rw [List.forall_mem_append, hts.covers]
      exact and_iff_left hrated.covers

theorem evalAll_agrees (hsort : SortsBy higherRate sort) : ∀ (es : List (Expr N))
    {vs made : List (Value N)}, (Expr.evalAll sort es).run = some (vs, made) → AgreesAll es vs made
  | [], vs, made, h => by
    rw [Expr.evalAll] at h
    obtain ⟨rfl, rfl⟩ := pure_eq_some.mp h
    exact ⟨rfl, iff_of_true (fun u hu => by cases hu) trivial, fun _ => rfl⟩
  | e :: es, vs, made, h => by
    rw [Expr.evalAll] at h
    obtain ⟨v, w₁, w₂, hv, hrest, rfl⟩ := bind_eq_some.mp h
    obtain ⟨vs, w₃, w₄, hvs, hpure, rfl⟩ := bind_eq_some.mp hrest
    obtain ⟨rfl, rfl⟩ := pure_eq_some.mp hpure
    have he := eval_agrees hsort e hv
    have hes := evalAll_agrees hsort es hvs
    refine ⟨?_, ?_, fun hled => ?_⟩
    · rw [List.mapM_cons, he.number, hes.numbers, Expr.constantAll]
    · rw [List.append_nil, List.forall_mem_append, he.judged.covers, hes.covers, Expr.LedAll]
    · rw [Expr.LedAll] at hled
      rw [topRate, Expr.maxRateAll, he.judged.rate hled.1, hes.rates hled.2]

end

/-! ### Expressions that evaluate -/

mutual

/-- Methods of UGens only, operators that there are, and mixes of UGens. -/
def Expr.WellFormed : Expr N → Prop
  | .number _ => True
  | .ugen _ => True
  | .arith _ a b => a.WellFormed ∧ b.WellFormed
  | .unary k self => self.WellFormed ∧ self.constant = none ∧ (unary_ops.lookup k).isSome
  | .binary k self b => self.WellFormed ∧ b.WellFormed ∧ self.constant = none ∧
      (binary_ops.lookup k).isSome
  | .BinOp a op b => a.WellFormed ∧ b.WellFormed ∧ (binary_ops.lookup op).isSome
  | .madd self mul add => self.WellFormed ∧ mul.WellFormed ∧ add.WellFormed ∧ self.constant = none
  | .range self lo hi => self.WellFormed ∧ lo.WellFormed ∧ hi.WellFormed ∧ self.constant = none
  | .mix t => t.WellFormed ∧ t.constant = none
  | .mixArray ts => Expr.WellFormedAll ts ∧ ts ≠ []

def Expr.WellFormedAll : List (Expr N) → Prop
  | [] => True
  | e :: es => e.WellFormed ∧ e.constant = none ∧ Expr.WellFormedAll es

end

/-- The computation does not fail. -/
def Returns {α : Type} (m : Make N α) : Prop := ∃ v made, m.run = some (v, made)

omit [LuaArith N] in
theorem Returns.bind {α β : Type} {m : Make N α} {f : α → Make N β} (hm : Returns m)
    (hf : ∀ v made, m.run = some (v, made) → Returns (f v)) : Returns (m >>= f) := by
  obtain ⟨v, w, hv⟩ := hm
  obtain ⟨u, w', hu⟩ := hf v w hv
  exact ⟨u, w ++ w', bind_eq_some.mpr ⟨v, w, w', hv, hu, rfl⟩⟩

omit [LuaArith N] in
theorem returns_ofOption {α : Type} {x : Option α} (h : x.isSome) :
    Returns (ofOption x : Make N α) := by
  obtain ⟨a, rfl⟩ := Option.isSome_iff_exists.mp h
  exact ⟨a, [], rfl⟩

omit [LuaArith N] in
theorem newBinary_returns {selector : LString} (h : (binary_ops.lookup selector).isSome)
    (a b : Value N) : Returns (newBinary selector a b) :=
  (returns_ofOption h).bind fun _ _ _ => ⟨_, _, rfl⟩

omit [LuaArith N] in
theorem newUnary_returns {selector : LString} (h : (unary_ops.lookup selector).isSome)
    (a : Value N) : Returns (newUnary selector a) :=
  (returns_ofOption h).bind fun _ _ _ => ⟨_, _, rfl⟩

omit [LuaArith N] in
theorem calcrate_isSome {a : Value N} (h : a.number? = none) : a.calcrate.isSome := by
  cases a with
  | number => cases h
  | source | made => rfl

omit [LuaArith N] in
theorem newmuladd_returns {inp : Value N} (h : inp.number? = none) (mul add : Value N) :
    Returns (newmuladd inp mul add) :=
  (returns_ofOption (calcrate_isSome h)).bind fun _ _ _ => ⟨_, _, rfl⟩

theorem apply_returns (op : Operator) (a b : Value N) : Returns (op.apply a b) := by
  unfold Operator.apply
  split
  next => exact ⟨_, _, rfl⟩
  next =>
    cases op with
    | add =>
      show Returns (if b.equals 0 then pure a else if a.equals 0 then pure b else _)
      split_ifs
      · exact ⟨_, _, rfl⟩
      · exact ⟨_, _, rfl⟩
      · exact newBinary_returns rfl a b
    | sub =>
      show Returns (if b.equals 0 then pure a else if a.equals 0 then _ else _)
      split_ifs
      · exact ⟨_, _, rfl⟩
      · exact newUnary_returns rfl b
      · exact newBinary_returns rfl a b
    | mul =>
      show Returns (if b.equals 1 then pure a else if a.equals 1 then pure b else _)
      split_ifs
      · exact ⟨_, _, rfl⟩
      · exact ⟨_, _, rfl⟩
      · exact newBinary_returns rfl a b
    | div =>
      show Returns (if b.equals 1 then pure a else _)
      split_ifs
      · exact ⟨_, _, rfl⟩
      · exact newBinary_returns rfl a b

theorem madd_returns {self : Value N} (h : self.number? = none) (mul add : Value N) :
    Returns (madd self mul add) := by
  refine (returns_ofOption (calcrate_isSome h)).bind fun _ _ _ => ?_
  split_ifs
  · exact ⟨_, _, rfl⟩
  · exact apply_returns .mul self mul
  · exact apply_returns .add self add
  · exact newmuladd_returns h mul add

theorem range_returns {self : Value N} (h : self.number? = none) (lo hi : Option (Value N)) :
    Returns (range self lo hi) := by
  have hrange : self.signalRange.isSome := by
    cases self with
    | number => cases h
    | source | made => rfl
  refine (returns_ofOption hrange).bind fun signalRange _ _ => ?_
  cases signalRange with
  | bipolar =>
    exact (apply_returns .sub _ _).bind fun _ _ _ => (apply_returns .mul _ _).bind fun _ _ _ =>
      (apply_returns .add _ _).bind fun _ _ _ => newmuladd_returns h _ _
  | unipolar => exact (apply_returns .sub _ _).bind fun _ _ _ => newmuladd_returns h _ _

mutual

/-- A well-formed expression evaluates. -/
theorem eval_returns (hsort : SortsBy higherRate sort) : ∀ e : Expr N, e.WellFormed →
    Returns (e.eval sort)
  | .number x, _ => ⟨_, _, rfl⟩
  | .ugen u, _ => ⟨_, _, rfl⟩
  | .arith op a b, h => by
    rw [Expr.eval]
    exact (eval_returns hsort a h.1).bind fun _ _ _ =>
      (eval_returns hsort b h.2).bind fun _ _ _ => apply_returns op _ _
  | .unary k self, h => by
    rw [Expr.eval]
    refine (eval_returns hsort self h.1).bind fun v _ hv => ?_
    have hugen := (eval_agrees hsort self hv).number.trans h.2.1
    exact (returns_ofOption (calcrate_isSome hugen)).bind fun _ _ _ => newUnary_returns h.2.2 v
  | .binary k self b, h => by
    rw [Expr.eval]
    refine (eval_returns hsort self h.1).bind fun v _ hv => ?_
    have hugen := (eval_agrees hsort self hv).number.trans h.2.2.1
    exact (eval_returns hsort b h.2.1).bind fun u _ _ =>
      (returns_ofOption (calcrate_isSome hugen)).bind fun _ _ _ => newBinary_returns h.2.2.2 v u
  | .BinOp a op b, h => by
    rw [Expr.eval]
    exact (eval_returns hsort a h.1).bind fun v _ _ =>
      (eval_returns hsort b h.2.1).bind fun u _ _ => newBinary_returns h.2.2 v u
  | .madd self mul add, h => by
    rw [Expr.eval]
    refine (eval_returns hsort self h.1).bind fun v _ hv => ?_
    have hugen := (eval_agrees hsort self hv).number.trans h.2.2.2
    exact (eval_returns hsort mul h.2.1).bind fun _ _ _ =>
      (eval_returns hsort add h.2.2.1).bind fun _ _ _ => madd_returns hugen _ _
  | .range self lo hi, h => by
    rw [Expr.eval]
    refine (eval_returns hsort self h.1).bind fun v _ hv => ?_
    have hugen := (eval_agrees hsort self hv).number.trans h.2.2.2
    exact (eval_returns hsort lo h.2.1).bind fun _ _ _ =>
      (eval_returns hsort hi h.2.2.1).bind fun _ _ _ => range_returns hugen _ _
  | .mix t, h => by
    rw [Expr.eval]
    refine (eval_returns hsort t h.1).bind fun v _ hv => ?_
    have hugen := (eval_agrees hsort t hv).number.trans h.2
    exact (returns_ofOption (calcrate_isSome hugen)).bind fun _ _ _ => ⟨_, _, rfl⟩
  | .mixArray ts, h => by
    rw [Expr.eval]
    obtain ⟨vs, made, hvs, hugens, hlen⟩ := evalAll_returns hsort ts h.1
    refine Returns.bind ⟨vs, made, hvs⟩ fun us _ hus => ?_
    cases hvs.symm.trans hus
    refine mixArray_total hsort hugens fun hnil => h.2 ?_
    rw [hnil] at hlen
    exact List.length_eq_zero_iff.mp hlen.symm

theorem evalAll_returns (hsort : SortsBy higherRate sort) : ∀ es : List (Expr N),
    Expr.WellFormedAll es → ∃ vs made, (Expr.evalAll sort es).run = some (vs, made) ∧
      (∀ v ∈ vs, v.number? = none) ∧ vs.length = es.length
  | [], _ => ⟨[], [], rfl, fun v hv => (by cases hv), rfl⟩
  | e :: es, h => by
    obtain ⟨v, w, hv⟩ := eval_returns hsort e h.1
    obtain ⟨vs, w', hvs, hugens, hlen⟩ := evalAll_returns hsort es h.2.2
    refine ⟨v :: vs, w ++ (w' ++ []), ?_, List.forall_mem_cons.mpr ⟨?_, hugens⟩,
      congrArg (· + 1) hlen⟩
    · rw [Expr.evalAll]
      exact bind_eq_some.mpr ⟨v, w, _, hv, bind_eq_some.mpr ⟨vs, w', [], hvs, rfl, rfl⟩, rfl⟩
    · exact (eval_agrees hsort e hv).number.trans h.2.1

end

/-- **The rates of an expression** are right, that is, the result has the greatest rate
and no UGen on the way has an input of a higher rate than its own, if and only if at every
`MulAdd` the UGen in front has the greatest rate of the three. -/
theorem eval_rates_iff (hsort : SortsBy higherRate sort) {e : Expr N} {v : Value N}
    {made : List (Value N)} (h : (e.eval sort).run = some (v, made)) :
    (v.rate = e.maxRate ∧ ∀ u ∈ made, Covers u) ↔ e.Led := by
  obtain ⟨-, hcovers, hrate⟩ := eval_agrees hsort e h
  exact ⟨fun ⟨_, hall⟩ => hcovers.mp hall, fun hled => ⟨hrate hled, hcovers.mpr hled⟩⟩

/-- `SinOsc.kr():madd(LFNoise1.ar(), 3)`. -/
def tremolo : Expr ℚ :=
  .madd (.ugen ⟨.ugen 0, 1, .bipolar⟩) (.ugen ⟨.ugen 1, 2, .bipolar⟩) (.number 3)

/-- The `MulAdd` is of rate 1 and has an input of rate 2. -/
theorem tremolo_rate : ¬ ∀ (sort : List (Value ℚ) → List (Value ℚ)), SortsBy higherRate sort →
    ∀ (e : Expr ℚ) (v : Value ℚ) (made : List (Value ℚ)), (e.eval sort).run = some (v, made) →
      v.rate = e.maxRate ∧ ∀ u ∈ made, Covers u := by
  intro h
  obtain ⟨hrate, -⟩ := h _ sortsBy_higherRate tremolo _ _ rfl
  exact absurd hrate (by decide)

/-- `SinOsc.ar():madd(LFNoise1.kr(), 3)`. -/
def tremoloAr : Expr ℚ :=
  .madd (.ugen ⟨.ugen 0, 2, .bipolar⟩) (.ugen ⟨.ugen 1, 1, .bipolar⟩) (.number 3)

theorem tremoloAr_rates : ∃ v made, (tremoloAr.eval (List.insertionSort fun a b : Value ℚ =>
      OrderDual.toDual a.rate ≤ OrderDual.toDual b.rate)).run = some (v, made) ∧
    v.rate = tremoloAr.maxRate ∧ ∀ u ∈ made, Covers u := by
  refine ⟨_, _, rfl, (eval_rates_iff sortsBy_higherRate (e := tremoloAr) rfl).mpr ?_⟩
  simp [tremoloAr, Expr.Led, Expr.maxRate]

end Lua2SC.SynthDef.Signal

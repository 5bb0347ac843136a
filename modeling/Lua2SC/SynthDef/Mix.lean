import Lua2SC.Lib.DueQueue
import Lua2SC.SynthDef.Operators

/-!
# `Mix`, `Sum3` and `Sum4`

`Mix` cuts an array in clumps of four, makes a `Sum4` or a `Sum3` of a clump of that many
and adds up a shorter one, which can only be the last. What it gets it reduces in the same
way once more, by `Mix` if there are more than three.

`Sum3` and `Sum4` sort their inputs by rate, which fails on a number, and take the first
one's. `table.sort` is not stable; of the function `sort` only `SortsBy` is used.

An array of two or more has fewer clumps than elements, so the recursion ends. Since a
clump's result stands for the clump, whatever holds of the reduction of one clump and can
be put together holds of `Mix` (`Mix_rule`); that each input is in the tree exactly once
(`Mix_keeps`) is such a property.
-/

namespace Lua2SC.SynthDef.Signal

open Lua2SC.Lua Lua2SC.Logging Lua2SC.DueQueue

/-! ## `_TAmt:clump` -/

section Clump

variable {α : Type}

/-- One element of `clump`: the last clump gets it, or a new one if that is full. -/
def clumpStep (size : ℕ) (res : List (List α)) (v : α) : List (List α) :=
  let res := if (res.getLastD []).length ≥ size then res ++ [[]] else res
  res.dropLast ++ [res.getLastD [] ++ [v]]

/-- `t:clump(size)`. -/
def clump (size : ℕ) (self : List α) : List (List α) := self.foldl (clumpStep size) [[]]

/-- The clumps of what has been taken: all but the last are full. -/
structure Clumps (size : ℕ) (taken : List α) (full : List (List α)) (last : List α) : Prop where
  lengths : ∀ c ∈ full, c.length = size
  last_le : last.length ≤ size
  filled : taken ≠ [] → last ≠ []
  flatten : (full ++ [last]).flatten = taken

theorem Clumps.step {size : ℕ} (hsize : 0 < size) {taken : List α} {full : List (List α)}
    {last : List α} (h : Clumps size taken full last) (v : α) : ∃ full' last',
      clumpStep size (full ++ [last]) v = full' ++ [last'] ∧
        Clumps size (taken ++ [v]) full' last' := by
  have hres : clumpStep size (full ++ [last]) v =
      if last.length ≥ size then full ++ [last] ++ [[v]] else full ++ [last ++ [v]] := by
    unfold clumpStep
    rw [List.getLastD_concat]
    split <;> simp only [List.getLastD_concat, List.dropLast_concat, List.nil_append]
  rw [hres]
  by_cases hfull : last.length ≥ size
  · refine ⟨full ++ [last], [v], ?_, ?_, hsize, fun _ => List.cons_ne_nil _ _, ?_⟩
    · rw [if_pos hfull]
    · refine List.forall_mem_append.mpr ⟨h.lengths, fun c hc => ?_⟩
      rw [List.mem_singleton.mp hc]
      exact le_antisymm h.last_le hfull
    · rw [List.flatten_append, h.flatten]
      rfl
  · refine ⟨full, last ++ [v], ?_, h.lengths, ?_, fun _ => List.append_ne_nil_of_right_ne_nil _
      (List.cons_ne_nil _ _), ?_⟩
    · rw [if_neg hfull]
    · rw [List.length_append, List.length_singleton]
      omega
    · rw [← h.flatten, List.flatten_append, List.flatten_append, List.flatten_singleton,
        List.flatten_singleton, List.append_assoc]

theorem clump_spec {size : ℕ} (hsize : 0 < size) (self : List α) : ∃ full last,
    clump size self = full ++ [last] ∧ Clumps size self full last := by
  have hloop : ∀ (self taken : List α) (full : List (List α)) (last : List α),
      Clumps size taken full last → ∃ full' last',
        self.foldl (clumpStep size) (full ++ [last]) = full' ++ [last'] ∧
          Clumps size (taken ++ self) full' last' := by
    intro self
    induction self with
    | nil =>
      intro taken full last h
      exact ⟨full, last, rfl, by rwa [List.append_nil]⟩
    | cons v self ih =>
      intro taken full last h
      obtain ⟨full', last', hstep, h'⟩ := h.step hsize v
      rw [List.foldl_cons, hstep, List.append_cons taken]
      exact ih _ full' last' h'
  exact hloop self [] [] [] ⟨fun c hc => (by cases hc), Nat.zero_le _, fun h => absurd rfl h, rfl⟩

theorem clump_flatten {size : ℕ} (hsize : 0 < size) (self : List α) :
    (clump size self).flatten = self := by
  obtain ⟨full, last, heq, h⟩ := clump_spec hsize self
  rw [heq, h.flatten]

theorem clump_length_le {size : ℕ} (hsize : 0 < size) {self c : List α} (hc : c ∈ clump size self) :
    c.length ≤ size := by
  obtain ⟨full, last, heq, h⟩ := clump_spec hsize self
  rw [heq] at hc
  rcases List.mem_append.mp hc with hc | hc
  · exact (h.lengths c hc).le
  · rw [List.mem_singleton.mp hc]
    exact h.last_le

/-- Of something there are no empty clumps. -/
theorem clump_ne_nil {size : ℕ} (hsize : 0 < size) {self c : List α} (hself : self ≠ [])
    (hc : c ∈ clump size self) : c ≠ [] := by
  obtain ⟨full, last, heq, h⟩ := clump_spec hsize self
  rw [heq] at hc
  rcases List.mem_append.mp hc with hc | hc
  · exact List.ne_nil_of_length_pos (h.lengths c hc ▸ hsize)
  · rw [List.mem_singleton.mp hc]
    exact h.filled hself

/-- Where there is more than one clump, there are fewer clumps than elements. -/
theorem clump_length_lt {size : ℕ} (hsize : 1 < size) {self : List α}
    (h : 1 < (clump size self).length) : (clump size self).length < self.length := by
  obtain ⟨full, last, heq, hclumps⟩ := clump_spec (Nat.zero_lt_of_lt hsize) self
  have hself : self ≠ [] := by
    rintro rfl
    exact absurd h (Nat.lt_irrefl 1)
  have hlast := List.length_pos_iff.mpr (hclumps.filled hself)
  have hfull : full.flatten.length = full.length * size := by
    rw [List.length_flatten, List.map_congr_left hclumps.lengths, List.map_const', List.sum_replicate,
      smul_eq_mul]
  have hlen := congrArg List.length hclumps.flatten
  rw [List.flatten_append, List.length_append, hfull, List.flatten_singleton] at hlen
  rw [heq, List.length_append, List.length_singleton] at h ⊢
  have htwo : full.length * 2 ≤ full.length * size := Nat.mul_le_mul_left _ hsize
  omega

/-- What fits in a clump is one. -/
theorem clump_of_le {size : ℕ} (hsize : 0 < size) {self : List α} (h : self.length ≤ size) :
    clump size self = [self] := by
  obtain ⟨full, last, heq, hclumps⟩ := clump_spec hsize self
  have hflat := hclumps.flatten
  cases full with
  | nil =>
    rw [heq, ← hflat]
    exact congrArg (fun c => [c]) (List.append_nil last).symm
  | cons c full =>
    have hself : self ≠ [] := by
      rintro rfl
      have hc := hclumps.lengths c List.mem_cons_self
      have hlen := congrArg List.length hflat
      rw [List.cons_append, List.flatten_cons, List.length_append, List.length_nil] at hlen
      omega
    have hlast := List.length_pos_iff.mpr (hclumps.filled hself)
    have hlen := congrArg List.length hflat
    rw [List.cons_append, List.flatten_cons, List.flatten_append, List.flatten_singleton,
      List.length_append, List.length_append, hclumps.lengths c List.mem_cons_self] at hlen
    omega

/-- A clump is as long as a short list, or full. -/
theorem exists_long_clump {size n : ℕ} (hsize : n ≤ size) {self : List α} (h : n ≤ self.length)
    (hpos : 0 < size) : ∃ c ∈ clump size self, n ≤ c.length := by
  by_cases hle : self.length ≤ size
  · exact ⟨self, clump_of_le hpos hle ▸ List.mem_singleton_self self, h⟩
  · obtain ⟨full, last, heq, hclumps⟩ := clump_spec hpos self
    cases full with
    | nil =>
      have hlast := hclumps.last_le
      have hflat := congrArg List.length hclumps.flatten
      rw [List.nil_append, List.flatten_singleton] at hflat
      omega
    | cons c full =>
      refine ⟨c, heq ▸ List.mem_cons_self, ?_⟩
      rw [hclumps.lengths c List.mem_cons_self]
      exact hsize

end Clump

/-! ## `Sum3`, `Sum4` and `Mix` -/

variable {N : Type}

/-- The comparison `sort` is given: `a.calcrate > b.calcrate`. -/
def higherRate (a b : Value N) : Bool := decide (a.rate > b.rate)

/-- `new1` of the class, the arguments in a table: it sorts them, which indexes each with
`calcrate`. -/
def sumNew1 (sort : List (Value N) → List (Value N)) (cls : OpClass) (argArray : List (Value N)) :
    Make N (Value N) := do
  let _ ← ofOption (argArray.mapM Value.calcrate)
  let sortedArgs := sort argArray
  let rate ← ofOption (sortedArgs.head?.bind Value.calcrate)
  new1 cls 0 rate sortedArgs

/-- `Sum3(in0, in1, in2)`. -/
def Sum3 (sort : List (Value N) → List (Value N)) : List (Value N) → Make N (Value N) :=
  sumNew1 sort .Sum3

/-- `Sum4(in0, in1, in2, in3)`. -/
def Sum4 (sort : List (Value N) → List (Value N)) : List (Value N) → Make N (Value N) :=
  sumNew1 sort .Sum4

variable [LuaArith N]

/-- `t:sum()`. -/
def sum (self : List (Value N)) : Make N (Value N) :=
  self.foldlM (fun ac v => Operator.add.apply ac v) (.number 0)

/-- What `Mix` makes of a clump. -/
def mixClump (sort : List (Value N) → List (Value N)) (v : List (Value N)) : Make N (Value N) :=
  if v.length = 4 then Sum4 sort v
  else if v.length = 3 then Sum3 sort v
  else sum v

/-- `Mix(t)` on an array. -/
def mixArray (sort : List (Value N) → List (Value N)) (t : List (Value N)) : Make N (Value N) := do
  let mixedarray ← each (mixClump sort) (clump 4 t)
  if mixedarray.1.length = 3 then Sum3 sort mixedarray.1
  else if _h : mixedarray.1.length < 3 then sum mixedarray.1
  else mixArray sort mixedarray.1
termination_by t.length
decreasing_by
  have hlen := mixedarray.2
  rw [hlen]
  exact clump_length_lt (by omega) (by omega)

/-- What `Mix` can be given. -/
inductive Mixable (N : Type) where
  | single (t : Value N)
  | array (t : List (Value N))

/-- `Mix(t)`. -/
def Mix (sort : List (Value N) → List (Value N)) : Mixable N → Make N (Value N)
  | .single t => do
    let _ ← ofOption t.calcrate
    return t
  | .array t => mixArray sort t

/-- What holds of the mix of a clump and can be put together holds of `Mix`. -/
theorem mixArray_rule {sort : List (Value N) → List (Value N)}
    {R : List (Value N) → Value N → List (Value N) → Prop}
    (hclump : ∀ t v made, (mixClump sort t).run = some (v, made) → R t v made)
    (htrans : ∀ calls : List (Call (Value N) (List (Value N)) (Value N)),
      (∀ c ∈ calls, R c.input c.result c.logged) →
        ((calls.map Call.input).flatten ≠ [] → calls ≠ [] ∧ ∀ c ∈ calls, c.input ≠ []) →
          ∀ v made, R (calls.map Call.result) v made →
            R (calls.map Call.input).flatten v ((calls.map Call.logged).flatten ++ made))
    {t : List (Value N)} {v : Value N} {made : List (Value N)}
    (h : (mixArray sort t).run = some (v, made)) : R t v made := by
  induction hn : t.length using Nat.strong_induction_on generalizing t v made with
  | _ n ih =>
    rw [mixArray] at h
    obtain ⟨mixed, w₁, w₂, heach, hrest, rfl⟩ := bind_eq_some.mp h
    obtain ⟨calls, hin, hres, rfl, hcalls⟩ := each_eq_some heach
    have hagain : R mixed.1 v w₂ := by
      split at hrest
      next h3 =>
        refine hclump mixed.1 v w₂ ?_
        rwa [mixClump, if_neg (by omega), if_pos h3]
      next h3 =>
        split at hrest
        next hlt =>
          refine hclump mixed.1 v w₂ ?_
          rwa [mixClump, if_neg (by omega), if_neg h3]
        next hlt =>
          have hlen := mixed.2
          have hlt := @clump_length_lt _ 4 (by omega) t (by omega)
          exact ih _ (by omega) hrest rfl
    rw [← hres] at hagain
    have hfilled : (calls.map Call.input).flatten ≠ [] → calls ≠ [] ∧ ∀ c ∈ calls, c.input ≠ [] := by
      rw [hin]
      intro hne
      refine ⟨fun hnil => hne ?_, fun c hc => ?_⟩
      · rw [← hin, hnil]
        rfl
      · rw [clump_flatten (by omega)] at hne
        exact clump_ne_nil (by omega) hne (hin ▸ List.mem_map_of_mem hc)
    have hall := htrans calls (fun c hc => hclump _ _ _ (hcalls c hc)) hfilled v w₂ hagain
    rwa [hin, clump_flatten (by omega)] at hall

/-! ## Every input is kept -/

omit [LuaArith N] in
/-- A tree of `+`, `Sum3` and `Sum4` with these leaves. -/
inductive SumTree : Multiset (Value N) → Value N → Prop where
  | leaf (v : Value N) : SumTree {v} v
  | add {s t : Multiset (Value N)} {a b : Value N} (i rate : ℕ) : SumTree s a → SumTree t b →
      SumTree (s + t) (.made (.BinaryOpUGen (ascii "+")) i rate [a, b])
  | sum3 {s t u : Multiset (Value N)} {a b c : Value N} (i rate : ℕ) :
      SumTree s a → SumTree t b → SumTree u c →
        SumTree (s + t + u) (.made .Sum3 i rate [a, b, c])
  | sum4 {s t u w : Multiset (Value N)} {a b c d : Value N} (i rate : ℕ) :
      SumTree s a → SumTree t b → SumTree u c → SumTree w d →
        SumTree (s + t + u + w) (.made .Sum4 i rate [a, b, c, d])

omit [LuaArith N] in
/-- Trees in the place of the leaves. -/
theorem SumTree.graft {ms : Multiset (Value N)} {v : Value N} (h : SumTree ms v) :
    ∀ {ss : Multiset (Multiset (Value N))}, Multiset.Rel SumTree ss ms → SumTree ss.sum v := by
  induction h with
  | leaf v =>
    intro ss hss
    obtain ⟨s, rest, hs, hrest, rfl⟩ := Multiset.rel_cons_right.mp hss
    rw [Multiset.rel_zero_right.mp hrest, Multiset.sum_cons, Multiset.sum_zero, add_zero]
    exact hs
  | add i rate _ _ iha ihb =>
    intro ss hss
    obtain ⟨s, t, hs, ht, rfl⟩ := Multiset.rel_add_right.mp hss
    rw [Multiset.sum_add]
    exact .add i rate (iha hs) (ihb ht)
  | sum3 i rate _ _ _ iha ihb ihc =>
    intro ss hss
    obtain ⟨st, u, hst, hu, rfl⟩ := Multiset.rel_add_right.mp hss
    obtain ⟨s, t, hs, ht, rfl⟩ := Multiset.rel_add_right.mp hst
    rw [Multiset.sum_add, Multiset.sum_add]
    exact .sum3 i rate (iha hs) (ihb ht) (ihc hu)
  | sum4 i rate _ _ _ _ iha ihb ihc ihd =>
    intro ss hss
    obtain ⟨stu, w, hstu, hw, rfl⟩ := Multiset.rel_add_right.mp hss
    obtain ⟨st, u, hst, hu, rfl⟩ := Multiset.rel_add_right.mp hstu
    obtain ⟨s, t, hs, ht, rfl⟩ := Multiset.rel_add_right.mp hst
    rw [Multiset.sum_add, Multiset.sum_add, Multiset.sum_add]
    exact .sum4 i rate (iha hs) (ihb ht) (ihc hu) (ihd hw)

omit [LuaArith N] in
/-- What an operator has made is no number. -/
theorem SumTree.ugen {ms : Multiset (Value N)} {v : Value N} (h : SumTree ms v)
    (hms : ∀ x ∈ ms, x.number? = none) : v.number? = none := by
  cases h with
  | leaf => exact hms v (Multiset.mem_singleton_self v)
  | add | sum3 | sum4 => rfl

omit [LuaArith N] in
theorem mapM_calcrate {ts : List (Value N)} (h : ∀ t ∈ ts, t.number? = none) :
    ts.mapM Value.calcrate = some (ts.map Value.rate) := by
  induction ts with
  | nil => rfl
  | cons t ts ih =>
    rw [List.mapM_cons, ih fun x hx => h x (List.mem_cons_of_mem t hx)]
    cases t with
    | number x => cases h _ List.mem_cons_self
    | source u => rfl
    | made => rfl

omit [LuaArith N] in
/-- `Sum3` and `Sum4` of UGens have them as inputs, in the order of `sort`. -/
theorem sumNew1_ugens {sort : List (Value N) → List (Value N)} (hsort : SortsBy higherRate sort)
    (cls : OpClass) {ts : List (Value N)} (h : ∀ t ∈ ts, t.number? = none) (hne : ts ≠ []) :
    ∃ rate, (sumNew1 sort cls ts).run =
      some (.made cls 0 rate (sort ts), [.made cls 0 rate (sort ts)]) := by
  obtain ⟨t, rest, hsorted⟩ : ∃ t rest, sort ts = t :: rest :=
    List.exists_cons_of_ne_nil fun hnil => hne (hnil ▸ (hsort ts).1).nil_eq.symm
  have hugen : t.number? = none :=
    h t ((hsort ts).1.subset (hsorted ▸ List.mem_cons_self))
  obtain ⟨rate, hrate⟩ : ∃ rate, t.calcrate = some rate := by
    cases t with
    | number x => cases hugen
    | source u => exact ⟨_, rfl⟩
    | made => exact ⟨_, rfl⟩
  refine ⟨rate, bind_eq_some.mpr ⟨_, [], _, ofOption_eq_some.mpr ⟨mapM_calcrate h, rfl⟩, ?_, rfl⟩⟩
  refine bind_eq_some.mpr ⟨rate, [], _, ofOption_eq_some.mpr ⟨?_, rfl⟩,
    new1_eq_some.mpr ⟨rfl, rfl⟩, rfl⟩
  rw [hsorted]
  exact hrate

/-- Adding UGens one after the other. -/
theorem foldlM_add_tree {ts : List (Value N)} (hts : ∀ t ∈ ts, t.number? = none) :
    ∀ {s : Multiset (Value N)} {ac : Value N}, ac.number? = none → SumTree s ac →
      ∃ v made, (ts.foldlM (fun ac v => Operator.add.apply ac v) ac).run = some (v, made) ∧
        SumTree (s + (ts : Multiset (Value N))) v := by
  induction ts with
  | nil =>
    intro s ac _ hac
    exact ⟨ac, [], rfl, by rwa [Multiset.coe_nil, add_zero]⟩
  | cons t ts ih =>
    intro s ac hnum hac
    have ht := hts t List.mem_cons_self
    obtain ⟨u, made, hadd, htree, hu⟩ : ∃ u made, (Operator.add.apply ac t).run = some (u, made) ∧
        SumTree (s + {t}) u ∧ u.number? = none := by
      cases ac with
      | number x => cases hnum
      | source | made =>
        cases t with
        | number x => cases ht
        | source | made => exact ⟨_, _, rfl, .add 0 _ hac (.leaf _), rfl⟩
    obtain ⟨v, made', hfold, hv⟩ := ih (fun x hx => hts x (List.mem_cons_of_mem t hx)) hu htree
    refine ⟨v, made ++ made', ?_, ?_⟩
    · rw [List.foldlM_cons]
      exact bind_eq_some.mpr ⟨u, made, made', hadd, hfold, rfl⟩
    · rwa [add_assoc, Multiset.singleton_add, Multiset.cons_coe] at hv

theorem mixClump_tree {sort : List (Value N) → List (Value N)} (hsort : SortsBy higherRate sort)
    {t : List (Value N)} (ht : ∀ x ∈ t, x.number? = none) (hne : t ≠ []) :
    ∃ v made, (mixClump sort t).run = some (v, made) ∧ SumTree ↑t v := by
  have hperm := (hsort t).1
  unfold mixClump
  split
  next h4 =>
    obtain ⟨rate, hrun⟩ := sumNew1_ugens hsort .Sum4 ht hne
    refine ⟨_, _, hrun, ?_⟩
    obtain ⟨a, b, c, d, hsorted⟩ := List.length_eq_four.mp (hperm.length_eq.trans h4)
    rw [← Multiset.coe_eq_coe.mpr hperm, hsorted]
    exact .sum4 0 rate (.leaf a) (.leaf b) (.leaf c) (.leaf d)
  next =>
    split
    next h3 =>
      obtain ⟨rate, hrun⟩ := sumNew1_ugens hsort .Sum3 ht hne
      refine ⟨_, _, hrun, ?_⟩
      obtain ⟨a, b, c, hsorted⟩ := List.length_eq_three.mp (hperm.length_eq.trans h3)
      rw [← Multiset.coe_eq_coe.mpr hperm, hsorted]
      exact .sum3 0 rate (.leaf a) (.leaf b) (.leaf c)
    next =>
      obtain ⟨x, rest, rfl⟩ := List.exists_cons_of_ne_nil hne
      have hx := ht x List.mem_cons_self
      -- `0 + x` is `x`
      have hfirst : (Operator.add.apply (.number 0) x).run = some (x, ([] : List (Value N))) := by
        cases x with
        | number => cases hx
        | source | made =>
          unfold Operator.apply
          simp only [Operator.event, addEvent, Value.equals, LuaArith.zero_beq]
          rfl
      obtain ⟨v, made, hfold, hv⟩ :=
        foldlM_add_tree (fun y hy => ht y (List.mem_cons_of_mem x hy)) hx (.leaf x)
      refine ⟨v, made, ?_, by rwa [Multiset.singleton_add] at hv⟩
      rw [sum, List.foldlM_cons]
      exact bind_eq_some.mpr ⟨x, [], made, hfirst, hfold, rfl⟩

/-- `Mix` does not fail on UGens. -/
theorem mixArray_total {sort : List (Value N) → List (Value N)} (hsort : SortsBy higherRate sort)
    {t : List (Value N)} (ht : ∀ x ∈ t, x.number? = none) (hne : t ≠ []) :
    ∃ v made, (mixArray sort t).run = some (v, made) := by
  induction hn : t.length using Nat.strong_induction_on generalizing t with
  | _ n ih =>
    have hclump : ∀ c ∈ clump 4 t, (∀ x ∈ c, x.number? = none) ∧ c ≠ [] := by
      refine fun c hc => ⟨fun x hx => ht x ?_, clump_ne_nil (by omega) hne hc⟩
      rw [← clump_flatten (by omega : 0 < 4) t]
      exact List.mem_flatten_of_mem hc hx
    obtain ⟨mixed, w₁, heach⟩ := each_total fun c hc =>
      let ⟨v, made, hrun, _⟩ := mixClump_tree hsort (hclump c hc).1 (hclump c hc).2
      ⟨v, made, hrun⟩
    obtain ⟨calls, hin, hres, -, hcalls⟩ := each_eq_some heach
    have hmixed : ∀ x ∈ mixed.1, x.number? = none := by
      rw [← hres]
      intro x hx
      obtain ⟨c, hc, rfl⟩ := List.mem_map.mp hx
      obtain ⟨hugens, hcne⟩ := hclump c.input (hin ▸ List.mem_map_of_mem hc)
      obtain ⟨v, made, hrun, htree⟩ := mixClump_tree hsort hugens hcne
      cases hrun.symm.trans (hcalls c hc)
      exact htree.ugen hugens
    have hmixedne : mixed.1 ≠ [] := by
      refine List.ne_nil_of_length_pos ?_
      rw [mixed.2]
      refine List.length_pos_of_ne_nil fun hnil => hne ?_
      rw [← clump_flatten (by omega : 0 < 4) t, hnil]
      rfl
    have hagain : ∃ v made, (if mixed.1.length = 3 then Sum3 sort mixed.1
        else if mixed.1.length < 3 then sum mixed.1 else mixArray sort mixed.1).run =
          some (v, made) := by
      by_cases hlt : mixed.1.length ≤ 3
      · obtain ⟨v, made, hrun, -⟩ := mixClump_tree hsort hmixed hmixedne
        refine ⟨v, made, ?_⟩
        rw [← hrun, mixClump, if_neg (by omega : ¬ mixed.1.length = 4)]
        split
        next => rfl
        next => rw [if_pos (by omega)]
      · rw [if_neg (by omega), if_neg (by omega)]
        have hlen := mixed.2
        have hshorter := @clump_length_lt _ 4 (by omega) t (by omega)
        exact ih _ (by omega) hmixed hmixedne rfl
    obtain ⟨v, made, hrun⟩ := hagain
    refine ⟨v, w₁ ++ made, ?_⟩
    rw [mixArray]
    exact bind_eq_some.mpr ⟨mixed, w₁, made, heach, hrun, rfl⟩

/-- **`Mix` keeps every input.** On UGens it returns, and what it returns is a tree of `+`,
`Sum3` and `Sum4` over them, each of them a leaf as often as it is given. -/
theorem Mix_keeps {sort : List (Value N) → List (Value N)} (hsort : SortsBy higherRate sort)
    {t : List (Value N)} (ht : ∀ x ∈ t, x.number? = none) (hne : t ≠ []) :
    ∃ v made, (Mix sort (.array t)).run = some (v, made) ∧ SumTree ↑t v := by
  obtain ⟨v, made, hrun⟩ := mixArray_total hsort ht hne
  refine ⟨v, made, hrun, ?_⟩
  refine mixArray_rule (R := fun t v _ => (∀ x ∈ t, x.number? = none) → t ≠ [] → SumTree ↑t v)
    ?_ ?_ hrun ht hne
  · intro t v made h ht hne
    obtain ⟨u, made', hrun, htree⟩ := mixClump_tree hsort ht hne
    cases hrun.symm.trans h
    exact htree
  · intro calls hcalls hfilled v made hv ht hne
    obtain ⟨hne, hinputs⟩ := hfilled hne
    have htrees : ∀ c ∈ calls, SumTree ↑c.input c.result ∧ c.result.number? = none := by
      intro c hc
      have hugens : ∀ x ∈ c.input, x.number? = none := fun x hx =>
        ht x (List.mem_flatten_of_mem (List.mem_map_of_mem hc) hx)
      have htree := hcalls c hc hugens (hinputs c hc)
      exact ⟨htree, htree.ugen hugens⟩
    have hroot : SumTree ↑(calls.map Call.result) v := by
      refine hv (fun x hx => ?_) (fun hnil => hne (List.map_eq_nil_iff.mp hnil))
      obtain ⟨c, hc, rfl⟩ := List.mem_map.mp hx
      exact (htrees c hc).2
    have hrel : Multiset.Rel SumTree
        ((calls : Multiset (Call (Value N) (List (Value N)) (Value N))).map
          fun c => (c.input : Multiset (Value N)))
        ((calls : Multiset (Call (Value N) (List (Value N)) (Value N))).map Call.result) := by
      rw [Multiset.rel_map]
      exact Multiset.rel_refl_of_refl_on fun c hc => (htrees c (Multiset.mem_coe.mp hc)).1
    have hflat := Multiset.coe_join (calls.map Call.input)
    rw [List.map_map] at hflat
    rw [← hflat]
    exact hroot.graft hrel

instance : LuaArith ℚ where
  half := 1 / 2
  zero_beq := rfl

/-- `table.sort` of the examples. -/
theorem sortsBy_higherRate :
    SortsBy higherRate (List.insertionSort fun a b : Value ℚ =>
      OrderDual.toDual a.rate ≤ OrderDual.toDual b.rate) :=
  sortsBy_insertionSort fun a : Value ℚ => OrderDual.toDual a.rate

/-- Five UGens, of different rates: a `Sum4` and one more. -/
def fiveUGens : List (Value ℚ) :=
  [0, 1, 2, 1, 2].mapIdx fun i rate => .source ⟨.ugen i, rate, .bipolar⟩

theorem fiveUGens_kept : ∃ v made, (Mix (List.insertionSort fun a b : Value ℚ =>
      OrderDual.toDual a.rate ≤ OrderDual.toDual b.rate) (.array fiveUGens)).run = some (v, made) ∧
    SumTree ↑fiveUGens v :=
  Mix_keeps sortsBy_higherRate (by simp [fiveUGens, Value.number?]) (List.cons_ne_nil _ _)

end Lua2SC.SynthDef.Signal

import Lua2SC.SynthDef.Graph

/-!
# `Control.names` and `Control:init`: the parameters of a SynthDef

`Control.names(ns)` enters the names without an index; `Control:init(...)`,
reached through `.kr(vs)`, gives the names from the first unindexed one on
the next free places of `parameters` and appends the default values: one for
a number, one for each element of an array. `TrigControl` does the same.

The SynthDefs the other modules speak of get their parameters from any
sequence of such calls (`declareAll`). At every moment the names are an
indexed part followed by a part still waiting for values (`Declared`), and
the indices of the first part increase strictly inside `1 … #parameters`
(`ParamsWF`).
-/

namespace Lua2SC.SynthDef

open Lua2SC.Lua

/-- A default value: a number, or an array of numbers (wrapped in `Ref`, so
that `MultiNew` does not expand it). -/
inductive ParamValue where
  | number (x : LuaNumber)
  | array (vs : List LuaNumber)

/-- The numbers a default value appends to `parameters`. -/
def ParamValue.numbers : ParamValue → List LuaNumber
  | .number x => [x]
  | .array vs => vs

/-- The two fields of the SynthDef that controls fill. -/
structure Params where
  parameters : List LuaNumber
  paramnames : List ParamName

/-- `Control.names(names)`. -/
def Control.names (names : List LString) (s : Params) : Params :=
  { s with paramnames := s.paramnames ++ names.map fun n => ⟨n, none⟩ }

/-- One turn of the loop of `Control:init`: the name at `last` gets the next
index, the value's numbers are appended, and `last` moves on. -/
def Control.initStep (s : ℕ × Params) (v : ParamValue) : LuaM (ℕ × Params) :=
  match s.2.paramnames[s.1]? with
  | none => .error "attempt to index a nil value"
  | some p => .ok (s.1 + 1,
      ⟨s.2.parameters ++ v.numbers,
        s.2.paramnames.set s.1 { p with index := some (s.2.parameters.length + 1) }⟩)

/-- `Control:init(...)`; the control's `specialIndex` is the number of
parameters there were. -/
def Control.init (values : List ParamValue) (s : Params) : LuaM Params := do
  let lastindexedname := s.paramnames.findIdx fun p => p.index.isNone
  luaAssert (lastindexedname < s.paramnames.length) "Init Control without names"
  let r ← values.foldlM Control.initStep (lastindexedname, s)
  return r.2

/-- What a graph function, or `SynthDef` before it, does to the parameters. -/
inductive ControlCall where
  | names (ns : List LString)
  | kr (values : List ParamValue)

def ControlCall.run (s : Params) : ControlCall → LuaM Params
  | .names ns => .ok (Control.names ns s)
  | .kr values => Control.init values s

/-- The calls made for a new SynthDef, in order. -/
def declareAll (calls : List ControlCall) : LuaM Params :=
  calls.foldlM ControlCall.run ⟨[], []⟩

/-- Every array among the default values has an element. -/
def NonEmptyArrays (calls : List ControlCall) : Prop :=
  ∀ values, .kr values ∈ calls → ∀ v ∈ values, v.numbers ≠ []

/-- Names with strictly increasing indices in `1 … n`. -/
def ParamsWF (names : List ParamName) (n : ℕ) : Prop :=
  ∃ idx : List ℕ, names.map (·.index) = idx.map some ∧ idx.Pairwise (· < ·) ∧
    ∀ i ∈ idx, 1 ≤ i ∧ i ≤ n

theorem ParamsWF.nil : ParamsWF [] 0 := ⟨[], rfl, List.Pairwise.nil, by simp⟩

/-- A name at the next free place, with room left behind it. -/
theorem ParamsWF.snoc {names : List ParamName} {n k : ℕ} (h : ParamsWF names n) (hk : 0 < k)
    (name : LString) : ParamsWF (names ++ [⟨name, some (n + 1)⟩]) (n + k) := by
  obtain ⟨idx, hmap, hpair, hrange⟩ := h
  refine ⟨idx ++ [n + 1], by simp [hmap], ?_, ?_⟩
  · refine List.pairwise_append.mpr ⟨hpair, List.pairwise_singleton _ _, ?_⟩
    intro i hi j hj
    rw [List.mem_singleton.mp hj]
    have := hrange i hi
    omega
  · intro i hi
    rcases List.mem_append.mp hi with hold | hnew
    · have := hrange i hold
      omega
    · rw [List.mem_singleton.mp hnew]
      omega

/-- A name that waits for its value. -/
def unindexed (name : LString) : ParamName := ⟨name, none⟩

/-- Indexed names in front, waiting ones behind. -/
def Declared (s : Params) : Prop :=
  ∃ (done : List ParamName) (rest : List LString),
    s.paramnames = done ++ rest.map unindexed ∧ ParamsWF done s.parameters.length

/-- No name of a well-formed list is waiting for its index. -/
theorem ParamsWF.indexed {names : List ParamName} {n : ℕ} (h : ParamsWF names n) :
    ∀ p ∈ names, p.index.isNone = false := by
  obtain ⟨idx, hmap, -, -⟩ := h
  intro p hp
  have hmem : p.index ∈ idx.map some := hmap ▸ List.mem_map.mpr ⟨p, hp, rfl⟩
  obtain ⟨i, -, hi⟩ := List.mem_map.mp hmem
  rw [← hi]
  rfl

/-- The search of `Control:init` stops at the first waiting name. -/
theorem ParamsWF.findIdx {names : List ParamName} {n : ℕ} (h : ParamsWF names n)
    (rest : List LString) :
    (names ++ rest.map unindexed).findIdx (fun p => p.index.isNone) = names.length := by
  rw [List.findIdx_append, List.findIdx_eq_length.mpr h.indexed, if_neg (Nat.lt_irrefl _)]
  cases rest with
  | nil => simp
  | cons m rest => simp [unindexed, List.findIdx_cons]

/-- The loop of `Control:init`, from the first waiting name on. -/
theorem initStep_loop :
    ∀ (values : List ParamValue) (done : List ParamName) (rest : List LString)
      (ps : List LuaNumber) (r : ℕ × Params),
      (∀ v ∈ values, v.numbers ≠ []) → ParamsWF done ps.length →
      values.foldlM Control.initStep (done.length, ⟨ps, done ++ rest.map unindexed⟩) = .ok r →
      Declared r.2 := by
  intro values
  induction values with
  | nil =>
    intro done rest ps r _ hwf h
    exact (Except.ok.inj h) ▸ ⟨done, rest, rfl, hwf⟩
  | cons v values ih =>
    intro done rest ps r hne hwf h
    rw [List.foldlM_cons] at h
    obtain ⟨s₁, hs₁, hrest⟩ := bind_ok.mp h
    cases rest with
    | nil =>
      -- more values than names
      exact absurd hs₁ (by simp [Control.initStep])
    | cons m rest =>
      have hv : 0 < v.numbers.length :=
        List.length_pos_iff.mpr (hne v (List.mem_cons_self ..))
      have hwf' := hwf.snoc hv m
      rw [← List.length_append] at hwf'
      refine ih (done ++ [⟨m, some (ps.length + 1)⟩]) rest (ps ++ v.numbers) r
        (fun w hw => hne w (List.mem_cons_of_mem _ hw)) hwf' ?_
      have hs₁' : s₁ = (done.length + 1, ⟨ps ++ v.numbers,
          done ++ ⟨m, some (ps.length + 1)⟩ :: rest.map unindexed⟩) := by
        simpa [Control.initStep, unindexed] using hs₁.symm
      rw [hs₁'] at hrest
      simpa using hrest

/-- One call leaves indexed names in front and waiting ones behind. -/
theorem ControlCall.run_declared {s s' : Params} {call : ControlCall}
    (hne : ∀ values, call = .kr values → ∀ v ∈ values, v.numbers ≠ []) (hs : Declared s)
    (h : call.run s = .ok s') : Declared s' := by
  obtain ⟨done, rest, hnames, hwf⟩ := hs
  cases call with
  | names ns =>
    cases h
    refine ⟨done, rest ++ ns, ?_, hwf⟩
    show s.paramnames ++ ns.map unindexed = _
    rw [hnames, List.map_append, List.append_assoc]
  | kr values =>
    obtain ⟨_, -, hrun⟩ := bind_ok.mp h
    obtain ⟨r, hr, hret⟩ := bind_ok.mp hrun
    cases hret
    obtain ⟨ps, names⟩ := s
    subst hnames
    rw [hwf.findIdx] at hr
    exact initStep_loop values done rest ps r (hne values rfl) hwf hr

/-- Any sequence of calls does. -/
theorem declareAll_declared {calls : List ControlCall} {s : Params}
    (hne : NonEmptyArrays calls) (h : declareAll calls = .ok s) : Declared s := by
  have hrun : ∀ (cs : List ControlCall) (s₀ s : Params), NonEmptyArrays cs → Declared s₀ →
      cs.foldlM ControlCall.run s₀ = .ok s → Declared s := by
    intro cs
    induction cs with
    | nil => intro s₀ s _ hs₀ h; exact (Except.ok.inj h) ▸ hs₀
    | cons call cs ih =>
      intro s₀ s hne hs₀ h
      rw [List.foldlM_cons] at h
      obtain ⟨s₁, hs₁, hrest⟩ := bind_ok.mp h
      refine ih s₁ s (fun vs hvs => hne vs (List.mem_cons_of_mem _ hvs)) ?_ hrest
      refine ControlCall.run_declared (fun vs hvs => hne vs ?_) hs₀ hs₁
      rw [hvs]
      exact List.mem_cons_self ..
  exact hrun calls ⟨[], []⟩ s hne ⟨[], [], rfl, ParamsWF.nil⟩ h

/-- When every name has got its value, the names are well formed. -/
theorem declareAll_wf {calls : List ControlCall} {s : Params} (hne : NonEmptyArrays calls)
    (h : declareAll calls = .ok s) (hall : ∀ p ∈ s.paramnames, p.index ≠ none) :
    ParamsWF s.paramnames s.parameters.length := by
  obtain ⟨done, rest, hnames, hwf⟩ := declareAll_declared hne h
  cases rest with
  | nil =>
    rw [hnames, List.map_nil, List.append_nil]
    exact hwf
  | cons m rest =>
    exact absurd rfl (hall (unindexed m) (by rw [hnames]; simp))

end Lua2SC.SynthDef

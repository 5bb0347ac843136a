import Lua2SC.Comm.Filters
import Lua2SC.Lib.IndexLoop

/-!
# `oscfunc.lua`: the filters of a path, their calls and their removal

`OSCFunc.filters[path]` is a list of filters, each with a template for the
arguments, a function and a run-once flag. `handleOSCReceive` walks over the
list of the message's path, calls the functions of the filters that match, and
removes those that run once; `clearfilters` walks over it to remove filters by
template. Both remove from the list `ipairs` is walking over, so the filter
behind a removed one is skipped.

For the calls that is the whole story: they are right exactly when no filter
that matches stands right behind a matched run-once filter
(`handleOSCReceive_iff`). `clearfilters` has more to it: it raises when the
path has no filters, its template is compared as a message would be (a
template is a prefix test, and the default "ALL" passes every one), and
without a template only the filters that match everything are found
(`clear_iff`).
-/

namespace Lua2SC.Comm

open Lua2SC.Lua Lua2SC.IndexLoop

/-- A template other than nil: one value, or a table of values. -/
inductive Template where
  | value (v : LuaValue)
  | table (vs : List LuaValue)
deriving DecidableEq, Repr

/-- The string `"ALL"`. -/
def Template.ALL : Template := .value (.string (ascii "ALL"))

/-- `template or "ALL"`. -/
def Template.orALL : Option Template → Template
  | none => .ALL
  | some (.value (.bool false)) => .ALL
  | some t => t

/-- `if type(template)~="table" then template = {template} end`. -/
def Template.asTable : Option Template → List LuaValue
  | none => []
  | some (.value v) => [v]
  | some (.table vs) => vs

/-- An entry of `OSCFunc.filters[path]`. -/
structure Filter (F : Type) where
  template : Template
  func : F
  runonce : Bool
deriving DecidableEq, Repr

/-- `OSCFunc.filters`. -/
abbrev Registry (F : Type) := LuaTable LString (List (Filter F))

/-- `CheckTemplate(msg, template)`. -/
def CheckTemplate (msg : List LuaValue) (template : Template) : Bool :=
  if template = .value (.bool false) ∨ template = .ALL then true
  else match template with
    | .table vs => vs.zipIdx.all fun vi => msg[vi.2]? == some vi.1
    | .value v => msg[0]? == some v

variable {F Linda : Type}

/-- The filters of a path. -/
def filtersOf (filters : Registry F) (path : LString) : List (Filter F) :=
  (filters.lookup path).getD []

/-- `OSCFunc.newfilter`; the request goes to the receive lane. -/
def newfilter (filters : Registry F) (path : LString) (template : Option Template) (func : F)
    (runonce : Bool) (block : Option Linda) (linda : Linda) : Registry F × Request Linda :=
  (filters.insert path (filtersOf filters path ++ [⟨.orALL template, func, runonce⟩]),
    .addFilter path linda block)

/-- `OSCFunc.handleOSCReceive(msg)`: the functions called with `msg`, in
order, and the registry afterwards. -/
def handleOSCReceive (filters : Registry F) (msg : Msg (List LuaValue)) : List F × Registry F :=
  match filters.lookup msg.path with
  | none => ([], filters)
  | some l =>
    let r := walk (fun f : Filter F => CheckTemplate msg.args f.template && f.runonce) l
    ((r.1.filter fun f => CheckTemplate msg.args f.template).map (·.func),
      filters.insert msg.path r.2)

/-- `OSCFunc.clearfilters(path, template)`: the registry afterwards, and the
requests sent. -/
def clearfilters (filters : Registry F) (path : LString) (template : Option Template)
    (linda : Linda) : LuaM (Registry F × List (Request Linda)) :=
  let template := Template.asTable template
  let filters := match filters.lookup path with
    | none => filters
    | some l => filters.insert path (walk (fun f : Filter F => CheckTemplate template f.template) l).2
  match filters.lookup path with
  | none => .error "attempt to get length of a nil value"
  | some l =>
    if l.length = 0 then .ok (filters.erase path, [.clearFilter path linda])
    else .ok (filters, [])

/-- The loop of `clearall` over the paths `pairs` visits. -/
def clearPaths (linda : Linda) (filters : Registry F) (paths : List LString) :
    LuaM (Registry F × List (Request Linda)) :=
  paths.foldlM (fun r path => do
    let r' ← clearfilters r.1 path none linda
    return (r'.1, r.2 ++ r'.2)) (filters, [])

/-- `OSCFunc.clearall()`. `pairs` visits the paths in the order of the list
that models the table, which may be any. -/
def clearall (filters : Registry F) (linda : Linda) : LuaM (Registry F × List (Request Linda)) :=
  clearPaths linda filters filters.keys

/-! ## Templates -/

/-- A table template is a prefix test. -/
theorem checkTemplate_table {msg vs : List LuaValue} :
    CheckTemplate msg (.table vs) = true ↔ vs <+: msg := by
  have hno : ¬ (Template.table vs = .value (.bool false) ∨ Template.table vs = .ALL) := by
    simp [Template.ALL]
  unfold CheckTemplate
  rw [if_neg hno, List.prefix_iff_getElem?]
  dsimp only
  rw [List.all_eq_true]
  constructor
  · intro h i hi
    exact beq_iff_eq.mp (h (vs[i], i) (List.mem_zipIdx_iff_getElem?.mpr (by simp)))
  · rintro h ⟨v, i⟩ hvi
    obtain ⟨hi, hv⟩ := List.getElem?_eq_some_iff.mp (List.mem_zipIdx_iff_getElem?.mp hvi)
    exact beq_iff_eq.mpr ((h i hi).trans (congrArg some hv))

/-! ## Dispatch -/

/-- The claim on one message: the matching filters are called once each, in
order, and the matched run-once filters are gone. -/
def DispatchesExactly (filters : Registry F) (msg : Msg (List LuaValue)) : Prop :=
  (handleOSCReceive filters msg).1
      = ((filtersOf filters msg.path).filter fun f => CheckTemplate msg.args f.template).map
        (·.func) ∧
    filtersOf (handleOSCReceive filters msg).2 msg.path
      = (filtersOf filters msg.path).filter
        fun f => !(CheckTemplate msg.args f.template && f.runonce)

/-- Right behind a matched run-once filter stands none that matches. -/
def Spaced (args : List LuaValue) (l : List (Filter F)) : Prop :=
  l.IsChain fun f g => (CheckTemplate args f.template && f.runonce) = true →
    CheckTemplate args g.template = false

/-- The filters of other paths are left alone. -/
theorem handleOSCReceive_frame (filters : Registry F) (msg : Msg (List LuaValue))
    {path : LString} (h : path ≠ msg.path) :
    (handleOSCReceive filters msg).2.lookup path = filters.lookup path := by
  unfold handleOSCReceive
  split
  · rfl
  · exact AList.lookup_insert_ne h

/-- **Dispatch is exact when the matched run-once filters are spaced**, and
only then. -/
theorem handleOSCReceive_iff (filters : Registry F) (msg : Msg (List LuaValue)) :
    DispatchesExactly filters msg ↔ Spaced msg.args (filtersOf filters msg.path) := by
  have hrm : ∀ f : Filter F, (CheckTemplate msg.args f.template && f.runonce) = true →
      CheckTemplate msg.args f.template = true := fun f h => (Bool.and_eq_true_iff.mp h).1
  unfold DispatchesExactly Spaced handleOSCReceive filtersOf
  cases hl : filters.lookup msg.path with
  | none =>
    dsimp only
    rw [hl]
    simp
  | some l =>
    dsimp only
    rw [AList.lookup_insert, walk_eq, Option.getD_some, Option.getD_some]
    constructor
    · rintro ⟨hcalls, -⟩
      rw [← visited_countP_iff _ hrm, List.countP_eq_length_filter, List.countP_eq_length_filter]
      simpa using congrArg List.length hcalls
    · intro hchain
      have hvisited := visited_filter_eq ((visited_countP_iff _ hrm l).mpr hchain)
      exact ⟨by rw [hvisited], remaining_eq_filter_of_chain hrm hchain⟩

/-- **Of two run-once filters only the first is called.** -/
theorem runonce_skips :
    ¬ ∀ (filters : Registry ℕ) (msg : Msg (List LuaValue)), DispatchesExactly filters msg := by
  intro h
  have hno := (h (AList.singleton (ascii "/done") [⟨.ALL, 1, true⟩, ⟨.ALL, 2, true⟩])
    ⟨ascii "/done", []⟩).1
  exact absurd hno (by decide)

/-! ## Unregistration -/

/-- A filter of the path that `template` speaks of: registered with it, or any
one when there is no template. A value is the table of that value. -/
def Registered (template : Option Template) (f : Filter F) : Bool :=
  match template with
  | none => true
  | some _ => Template.asTable (some f.template) == Template.asTable template

/-- The filters `clearfilters` comes to remove. -/
def Found (template : Option Template) (f : Filter F) : Bool :=
  CheckTemplate (Template.asTable template) f.template

/-- A filter registered with the template is one of those found by it. -/
theorem found_of_registered {t : Template} {f : Filter F}
    (h : Registered (some t) f = true) : Found (some t) f = true := by
  have hsame : Template.asTable (some f.template) = Template.asTable (some t) := beq_iff_eq.mp h
  unfold Found
  rw [← hsame]
  cases hf : f.template with
  | table vs => exact checkTemplate_table.mpr (List.prefix_refl vs)
  | value v =>
    unfold CheckTemplate
    split
    · rfl
    · exact beq_iff_eq.mpr rfl

/-- What `clearfilters` does to a path that has filters. -/
theorem clearfilters_some {filters : Registry F} {path : LString} {l : List (Filter F)}
    (h : filters.lookup path = some l) (template : Option Template) (linda : Linda) :
    clearfilters filters path template linda =
      .ok (if remaining (Found template) l = [] then
        ((filters.insert path (remaining (Found template) l)).erase path,
          [.clearFilter path linda])
      else (filters.insert path (remaining (Found template) l), [])) := by
  have hwalk : (walk (Found template) l).2 = remaining (Found template) l := by rw [walk_eq]
  unfold clearfilters
  simp only [h]
  rw [show (fun f : Filter F => CheckTemplate (Template.asTable template) f.template)
    = Found template from rfl, hwalk, AList.lookup_insert]
  dsimp only
  by_cases hnil : remaining (Found template) l = []
  · rw [if_pos (List.length_eq_zero_iff.mpr hnil), if_pos hnil]
  · rw [if_neg (fun h => hnil (List.length_eq_zero_iff.mp h)), if_neg hnil]

/-- What `clearfilters` does to a path without filters. -/
theorem clearfilters_none {filters : Registry F} {path : LString}
    (h : filters.lookup path = none) (template : Option Template) (linda : Linda) :
    clearfilters filters path template linda = .error "attempt to get length of a nil value" := by
  unfold clearfilters
  simp only [h]

/-- The claim on one `clearfilters`: no error, the filters registered with the
template gone and the others kept, other paths left alone, and a request sent
exactly when the path has no filters left. -/
def ClearsExactly (filters : Registry F) (path : LString) (template : Option Template)
    (linda : Linda) : Prop :=
  ∃ filters' sent, clearfilters filters path template linda = .ok (filters', sent) ∧
    filtersOf filters' path
      = (filtersOf filters path).filter (fun f => !Registered template f) ∧
    (∀ p, p ≠ path → filters'.lookup p = filters.lookup p) ∧
    sent = if filtersOf filters' path = [] then [.clearFilter path linda] else []

/-- **`clearfilters` does what it is for** exactly when the path has a list and
on that list the walk removes exactly the filters registered with the
template. -/
theorem clearfilters_iff (filters : Registry F) (path : LString) (template : Option Template)
    (linda : Linda) :
    ClearsExactly filters path template linda ↔
      ∃ l, filters.lookup path = some l ∧ Exact (Found template) (Registered template) l := by
  unfold ClearsExactly
  cases hl : filters.lookup path with
  | none =>
    rw [clearfilters_none hl]
    simp
  | some l =>
    rw [clearfilters_some hl]
    have hold : filtersOf filters path = l := by rw [filtersOf, hl]; rfl
    -- the filters left, in either branch
    have hnew : ∀ filters' sent,
        (if remaining (Found template) l = [] then
          ((filters.insert path (remaining (Found template) l)).erase path,
            [Request.clearFilter path linda])
        else (filters.insert path (remaining (Found template) l), [])) = (filters', sent) →
        filtersOf filters' path = remaining (Found template) l ∧
          (∀ p, p ≠ path → filters'.lookup p = filters.lookup p) ∧
          sent = if filtersOf filters' path = [] then [.clearFilter path linda] else [] := by
      intro filters' sent h
      by_cases hnil : remaining (Found template) l = []
      · rw [if_pos hnil] at h
        cases h
        have hof : filtersOf ((filters.insert path (remaining (Found template) l)).erase path) path
            = [] := by
          rw [filtersOf, AList.lookup_erase]
          rfl
        refine ⟨hof.trans hnil.symm, fun p hp => ?_, by rw [if_pos hof]⟩
        rw [AList.lookup_erase_ne hp, AList.lookup_insert_ne hp]
      · rw [if_neg hnil] at h
        cases h
        have hof : filtersOf (filters.insert path (remaining (Found template) l)) path
            = remaining (Found template) l := by
          rw [filtersOf, AList.lookup_insert]
          rfl
        refine ⟨hof, fun p hp => AList.lookup_insert_ne hp, ?_⟩
        rw [if_neg (fun h => hnil (hof.symm.trans h))]
    rw [hold]
    constructor
    · rintro ⟨filters', sent, hok, hof, -, -⟩
      have hrem := (hnew filters' sent (Except.ok.inj hok)).1
      exact ⟨l, rfl, (remaining_eq_filter_iff l).mp (hrem.symm.trans hof)⟩
    · rintro ⟨l', hl', hexact⟩
      cases hl'
      obtain ⟨hof, hframe, hsent⟩ := hnew _ _ rfl
      exact ⟨_, _, rfl, hof.trans ((remaining_eq_filter_iff l).mpr hexact), hframe, hsent⟩

/-- What `clearall` leaves of a path's list: nil when nothing is left. -/
def leftover (l : List (Filter F)) : Option (List (Filter F)) :=
  if remaining (Found none) l = [] then none else some (remaining (Found none) l)

/-- Clearing one path without a template. -/
theorem clearfilters_leftover {filters : Registry F} {path : LString} {l : List (Filter F)}
    (h : filters.lookup path = some l) (linda : Linda) :
    ∃ filters' sent, clearfilters filters path none linda = .ok (filters', sent) ∧
      filters'.lookup path = leftover l ∧
      ∀ p, p ≠ path → filters'.lookup p = filters.lookup p := by
  rw [clearfilters_some h]
  unfold leftover
  by_cases hnil : remaining (Found none) l = []
  · rw [if_pos hnil, if_pos hnil]
    exact ⟨_, _, rfl, AList.lookup_erase _ _, fun p hp =>
      (AList.lookup_erase_ne hp).trans (AList.lookup_insert_ne hp)⟩
  · rw [if_neg hnil, if_neg hnil]
    exact ⟨_, _, rfl, AList.lookup_insert _, fun p hp => AList.lookup_insert_ne hp⟩

/-- The loop of `clearall` over paths that have filters: it raises nothing, and
every path is cleared once. -/
theorem clearPaths_spec (linda : Linda) :
    ∀ (paths : List LString) (filters : Registry F) (sent : List (Request Linda)),
      paths.Nodup → (∀ p ∈ paths, p ∈ filters) →
      ∃ filters' sent', paths.foldlM (fun r path => do
          let r' ← clearfilters r.1 path none linda
          return (r'.1, r.2 ++ r'.2)) (filters, sent) = (.ok (filters', sent') : LuaM _) ∧
        ∀ p, filters'.lookup p
          = if p ∈ paths then (filters.lookup p).bind leftover else filters.lookup p := by
  intro paths
  induction paths with
  | nil =>
    intro filters sent _ _
    exact ⟨filters, sent, rfl, fun p => by simp⟩
  | cons path paths ih =>
    intro filters sent hnd hmem
    obtain ⟨hnotin, hnd'⟩ := List.nodup_cons.mp hnd
    obtain ⟨l, hl⟩ := Option.isSome_iff_exists.mp
      (AList.lookup_isSome.mpr (hmem path (List.mem_cons_self ..)))
    obtain ⟨filters₁, sent₁, hclear, hpath, hother⟩ := clearfilters_leftover hl linda
    have hmem₁ : ∀ p ∈ paths, p ∈ filters₁ := by
      intro p hp
      have hne : p ≠ path := fun h => hnotin (h ▸ hp)
      rw [← AList.lookup_isSome, hother p hne, AList.lookup_isSome]
      exact hmem p (List.mem_cons_of_mem _ hp)
    obtain ⟨filters', sent', hrun, hlookup⟩ := ih filters₁ (sent ++ sent₁) hnd' hmem₁
    refine ⟨filters', sent', ?_, ?_⟩
    · rw [List.foldlM_cons, hclear]
      exact hrun
    · intro p
      rw [hlookup p]
      by_cases hp : p = path
      · subst hp
        rw [if_neg hnotin, if_pos (List.mem_cons_self ..), hpath, hl]
        rfl
      · simp only [List.mem_cons, hp, false_or, hother p hp]

/-- The claim on `clearall`: no error, and no path has filters afterwards. -/
def ClearsAll (filters : Registry F) (linda : Linda) : Prop :=
  ∃ filters' sent, clearall filters linda = .ok (filters', sent) ∧
    ∀ path, filters'.lookup path = none

/-- **`clearall` empties the registry** exactly when no path has more than one
filter, and that one matches everything. -/
theorem clearall_iff (filters : Registry F) (linda : Linda) :
    ClearsAll filters linda ↔
      ∀ path l, filters.lookup path = some l →
        l = [] ∨ ∃ f, l = [f] ∧ Found none f = true := by
  obtain ⟨filters', sent, hrun, hlookup⟩ := clearPaths_spec linda filters.keys filters []
    filters.keys_nodup fun p hp => AList.mem_keys.mpr hp
  have hleft : ∀ path, filters'.lookup path = (filters.lookup path).bind leftover := by
    intro path
    rw [hlookup path]
    split
    · rfl
    next hno =>
      rw [AList.lookup_eq_none.mpr fun h => hno (AList.mem_keys.mp h)]
      rfl
  have hnone : ∀ l : List (Filter F),
      leftover l = none ↔ l = [] ∨ ∃ f, l = [f] ∧ Found none f = true := by
    intro l
    rw [← remaining_eq_nil_iff]
    unfold leftover
    split <;> simp_all
  constructor
  · rintro ⟨filters'', sent', hrun', hempty⟩ path l hl
    cases hrun.symm.trans hrun'
    have h := hempty path
    rw [hleft, hl] at h
    exact (hnone l).mp h
  · intro h
    refine ⟨filters', sent, hrun, fun path => ?_⟩
    rw [hleft]
    cases hl : filters.lookup path with
    | none => rfl
    | some l => exact (hnone l).mpr (h path l hl)

/-- **Unregistration, path by path and for the whole registry.** -/
theorem clear_iff (filters : Registry F) (linda : Linda) :
    (∀ path template, ClearsExactly filters path template linda ↔
      ∃ l, filters.lookup path = some l ∧ Exact (Found template) (Registered template) l) ∧
    (ClearsAll filters linda ↔ ∀ path l, filters.lookup path = some l →
      l = [] ∨ ∃ f, l = [f] ∧ Found none f = true) :=
  ⟨fun path template => clearfilters_iff filters path template linda,
    clearall_iff filters linda⟩

/-- **Unregistration fails** on a path without filters, where it raises, and
`clearall` leaves the second of two filters. -/
theorem clear_fails :
    (¬ ∀ (filters : Registry ℕ) (path : LString) (template : Option Template) (linda : ℕ),
      ClearsExactly filters path template linda) ∧
    ¬ ∀ (filters : Registry ℕ) (linda : ℕ), ClearsAll filters linda := by
  constructor
  · intro h
    obtain ⟨_, _, hok, -⟩ := h ∅ (ascii "/done") none 1
    exact absurd hok (by rw [clearfilters_none (AList.lookup_empty _)]; simp)
  · intro h
    have hshort := (clearall_iff _ _).mp
      (h (AList.singleton (ascii "/done") [⟨.ALL, 1, false⟩, ⟨.ALL, 2, false⟩]) 1)
    rcases hshort (ascii "/done") _ rfl with hnil | ⟨f, hf, -⟩
    · cases hnil
    · cases hf

end Lua2SC.Comm

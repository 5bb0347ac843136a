import Lua2SC.Lib.Nested
import Lua2SC.SynthDef.Graph

/-!
# `UGen:MultiNew`: multichannel expansion

The arguments of a UGen, its rate in front, are numbers, UGens and `Ref`s, or arrays of
such, of any lengths and depths. `MultiNew` makes one UGen of atoms; of arrays it makes
an array as long as the longest, for each place the UGens of the arguments taken there,
shorter arrays beginning again (`WrapAt`). It then looks at what it has taken in the same
way, and returns the element of an array of one instead of the array.

`expansion` is the account of it: there is a tree with one array for every level of the
arguments, those of one element included. At a path of it, every argument has been
followed along that path until an atom is reached (`follow`), and the tree that the code
returns is its collapse. So a place in the returned tree is a path with a 1 for each level
that was left out.

An entry of `newargs` is appended at `#newargs+1`, so one that is nil, which an empty
array gives, leaves no gap.
-/

namespace Lua2SC.SynthDef

open Lua2SC.Lua Lua2SC.NestedArrays

variable {A : Type*}

/-- A UGen as the default `new1` and `init` make it: `calcrate` and `inputs`. -/
structure Made (A : Type*) where
  name : LString
  calcrate : Option (Nested A)
  inputs : List (Nested A)

/-- `UGen:new1(rate, ...)`: the UGen and its place in `Allugens`. -/
def new1 (self : LString) (args : List (Nested A)) (Allugens : List (Made A)) :
    UGenId × List (Made A) :=
  (Allugens.length, Allugens ++ [⟨self, args.head?, args.tail⟩])

/-- `WrapAt(t, i)` on an array. -/
def WrapAt (t : List (Nested A)) (i : ℕ) : Option (Nested A) :=
  let i := i % t.length
  let i := if i ≠ 0 then i else t.length
  t[i - 1]?

/-- The loop over the arguments for the longest array; `isMultiExpandable` holds of the
arrays. -/
def expandSize (args : List (Nested A)) : ℕ :=
  args.foldl (fun size v =>
    match v with
    | .node t => if size < t.length then t.length else size
    | .leaf _ => size) 0

/-- An argument, taken at a place. -/
def newarg (i : ℕ) : Nested A → Option (Nested A)
  | .node t => WrapAt t i
  | .leaf a => some (.leaf a)

def newargs (i : ℕ) (args : List (Nested A)) : List (Nested A) := args.filterMap (newarg i)

theorem getElem?_weight {ts : List (Nested A)} {i : ℕ} {t : Nested A} (h : ts[i]? = some t) :
    t.weight ≤ Nested.weightAll ts :=
  Nested.weight_le_weightAll (List.mem_of_getElem? h)

/-- What is taken of the arguments has fewer arrays, if there was one. -/
theorem weightAll_newargs (i : ℕ) (args : List (Nested A)) :
    Nested.weightAll (newargs i args) ≤ Nested.weightAll args ∧
      ((∃ t, .node t ∈ args) → Nested.weightAll (newargs i args) < Nested.weightAll args) := by
  induction args with
  | nil =>
    refine ⟨le_rfl, fun h => ?_⟩
    obtain ⟨t, ht⟩ := h
    cases ht
  | cons v args ih =>
    obtain ⟨hle, hlt⟩ := ih
    unfold newargs at hle hlt ⊢
    cases v with
    | leaf a =>
      rw [List.filterMap_cons_some (show newarg i (.leaf a) = some (.leaf a) from rfl),
        Nested.weightAll, Nested.weightAll]
      refine ⟨Nat.add_le_add_left hle _, fun h => ?_⟩
      obtain ⟨t, ht⟩ := h
      refine Nat.add_lt_add_left (hlt ⟨t, ?_⟩) _
      exact (List.mem_cons.mp ht).resolve_left fun h => by cases h
    | node t =>
      have hbelow : Nested.weightAll (List.filterMap (newarg i) (.node t :: args)) <
          Nested.weightAll (.node t :: args) := by
        rw [Nested.weightAll, Nested.weight]
        cases hv : newarg i (.node t) with
        | none =>
          rw [List.filterMap_cons_none hv]
          omega
        | some u =>
          have hu := getElem?_weight (show t[_]? = some u from hv)
          rw [List.filterMap_cons_some hv, Nested.weightAll]
          omega
      exact ⟨hbelow.le, fun _ => hbelow⟩

/-- Something has a size, so there is an array. -/
theorem exists_array {args : List (Nested A)} (h : expandSize args ≠ 0) : ∃ t, .node t ∈ args := by
  by_contra hnone
  have hatoms : ∀ (args : List (Nested A)) (size : ℕ), (∀ t, Nested.node t ∉ args) →
      args.foldl (fun size v =>
        match v with
        | .node t => if size < t.length then t.length else size
        | .leaf _ => size) size = size := by
    intro args
    induction args with
    | nil => intro size _; rfl
    | cons v args ih =>
      intro size hv
      cases v with
      | leaf a => exact ih size fun t ht => hv t (List.mem_cons_of_mem _ ht)
      | node t => exact absurd List.mem_cons_self (hv t)
  exact h (hatoms args 0 (not_exists.mp hnone))

/-- `UGen:MultiNew(args)`: the UGen or the array of what was made, and `Allugens` after it. -/
def MultiNew (self : LString) (args : List (Nested A)) (Allugens : List (Made A)) :
    Nested UGenId × List (Made A) :=
  if _h : expandSize args = 0 then
    let (ret, Allugens) := new1 self args Allugens
    (.leaf ret, Allugens)
  else
    let (results, Allugens) := (List.range' 1 (expandSize args)).foldl (fun s i =>
      let (result, Allugens) := MultiNew self (newargs i args) s.2
      (s.1 ++ [result], Allugens)) ([], Allugens)
    if expandSize args = 1 then (results.headD (.node []), Allugens) else (.node results, Allugens)
termination_by Nested.weightAll args
decreasing_by exact (weightAll_newargs i args).2 (exists_array _h)

/-! ## Following a path -/

/-- The atom found along a path, with the places counted round. -/
def follow : List ℕ → Nested A → Option A
  | _, .leaf a => some a
  | [], .node _ => none
  | i :: path, .node t => (WrapAt t i).bind (follow path)

/-- What is left of the arguments along a path. -/
def along (path : List ℕ) (args : List (Nested A)) : List (Nested A) :=
  path.foldl (fun args i => newargs i args) args

/-- No array in it is empty. -/
inductive Filled : Nested A → Prop where
  | leaf (a : A) : Filled (.leaf a)
  | node (ts : List (Nested A)) : ts ≠ [] → (∀ t ∈ ts, Filled t) → Filled (.node ts)

/-- A UGen of atoms. -/
def madeOf (self : LString) (atoms : List A) : Made A :=
  ⟨self, (atoms.map Nested.leaf).head?, (atoms.map Nested.leaf).tail⟩

/-- The tree with all levels, over what was made: at a leaf the UGen of the atoms found
along its path, and everywhere as many places as the longest array that is left there. -/
structure Expansion (cls : LString) (args : List (Nested A)) (full : Nested UGenId)
    (Allugens : List (Made A)) : Prop where
  atoms : ∀ path u, full.sub path = some (.leaf u) → ∃ atoms : List A,
    args.map (follow path) = atoms.map some ∧ Allugens[u]? = some (madeOf cls atoms)
  places : ∀ path ts, full.sub path = some (.node ts) → ts.length = expandSize (along path args)

theorem wrapAt_mem {t : List (Nested A)} (h : t ≠ []) (i : ℕ) : ∃ u ∈ t, WrapAt t i = some u := by
  have hpos : 0 < t.length := List.length_pos_iff.mpr h
  have hlt := Nat.mod_lt i hpos
  have hplace : (if i % t.length ≠ 0 then i % t.length else t.length) - 1 < t.length := by
    split <;> omega
  exact ⟨_, List.getElem_mem hplace, List.getElem?_eq_getElem hplace⟩

/-- Taking an argument at a place is the first step of a path. -/
theorem Filled.newarg {v : Nested A} (h : Filled v) (i : ℕ) : ∃ u, newarg i v = some u ∧ Filled u ∧
    ∀ path, follow path u = follow (i :: path) v := by
  cases h with
  | leaf a => exact ⟨.leaf a, rfl, .leaf a, fun path => by rw [follow, follow]⟩
  | node ts hne hts =>
    obtain ⟨u, hu, hwrap⟩ := wrapAt_mem hne i
    refine ⟨u, hwrap, hts u hu, fun path => ?_⟩
    rw [follow, hwrap]
    rfl

theorem newargs_filled {args : List (Nested A)} (h : ∀ v ∈ args, Filled v) (i : ℕ) :
    (∀ v ∈ newargs i args, Filled v) ∧
      ∀ path, (newargs i args).map (follow path) = args.map (follow (i :: path)) := by
  induction args with
  | nil => exact ⟨fun v hv => (by cases hv), fun path => rfl⟩
  | cons v args ih =>
    obtain ⟨hfilled, hfollow⟩ := ih fun w hw => h w (List.mem_cons_of_mem v hw)
    obtain ⟨u, hu, hfill, hpath⟩ := (h v List.mem_cons_self).newarg i
    have hcons : newargs i (v :: args) = u :: newargs i args := List.filterMap_cons_some hu
    rw [hcons]
    refine ⟨List.forall_mem_cons.mpr ⟨hfill, hfilled⟩, fun path => ?_⟩
    rw [List.map_cons, List.map_cons, hpath, hfollow]

/-- No array is longer than what the loop finds. -/
theorem length_le_expandSize {args : List (Nested A)} {t : List (Nested A)} (h : .node t ∈ args) :
    t.length ≤ expandSize args := by
  have hfold : ∀ (args : List (Nested A)) (size : ℕ), size ≤ args.foldl (fun size v =>
      match v with
      | .node t => if size < t.length then t.length else size
      | .leaf _ => size) size ∧ (.node t ∈ args → t.length ≤ args.foldl (fun size v =>
      match v with
      | .node t => if size < t.length then t.length else size
      | .leaf _ => size) size) := by
    intro args
    induction args with
    | nil => exact fun size => ⟨le_rfl, fun h => by cases h⟩
    | cons v args ih =>
      intro size
      rw [List.foldl_cons]
      cases v with
      | leaf a =>
        refine ⟨(ih size).1, fun h => (ih size).2 ?_⟩
        exact (List.mem_cons.mp h).resolve_left fun h => by cases h
      | node u =>
        dsimp only
        obtain ⟨hsize, hmem⟩ := ih (if size < u.length then u.length else size)
        have hmax : size ≤ (if size < u.length then u.length else size) ∧
            u.length ≤ if size < u.length then u.length else size := by
          split <;> omega
        refine ⟨hmax.1.trans hsize, fun h => ?_⟩
        rcases List.mem_cons.mp h with heq | h
        · cases heq
          exact hmax.2.trans hsize
        · exact hmem h
  exact (hfold args 0).2 h

/-- Without a size, all arguments are atoms. -/
theorem atoms_of_size {args : List (Nested A)} (h : ∀ v ∈ args, Filled v)
    (hsize : expandSize args = 0) : ∃ atoms : List A, args = atoms.map Nested.leaf := by
  have hnone : ∀ t, Nested.node t ∉ args := by
    intro t ht
    have hle := length_le_expandSize ht
    cases h _ ht with
    | node _ hne _ => exact hne (List.length_eq_zero_iff.mp (by omega))
  clear hsize h
  induction args with
  | nil => exact ⟨[], rfl⟩
  | cons v args ih =>
    obtain ⟨atoms, rfl⟩ := ih fun t ht => hnone t (List.mem_cons_of_mem v ht)
    cases v with
    | leaf a => exact ⟨a :: atoms, rfl⟩
    | node t => exact absurd List.mem_cons_self (hnone t)

/-! ## The expansion -/

theorem Expansion.mono {self : LString} {args : List (Nested A)} {full : Nested UGenId}
    {Allugens : List (Made A)} (h : Expansion self args full Allugens) (later : List (Made A)) :
    Expansion self args full (Allugens ++ later) where
  atoms path u hu := by
    obtain ⟨atoms, hatoms, hmade⟩ := h.atoms path u hu
    obtain ⟨hlt, -⟩ := List.getElem?_eq_some_iff.mp hmade
    exact ⟨atoms, hatoms, (List.getElem?_append_left hlt).trans hmade⟩
  places := h.places

/-- One call of `MultiNew`: what it makes, and the tree that its result is the collapse of. -/
def Expands (self : LString) (args : List (Nested A)) : Prop :=
  ∀ Allugens : List (Made A), ∃ (full : Nested UGenId) (made : List (Made A)),
    MultiNew self args Allugens = (full.collapse, Allugens ++ made) ∧
      full.leaves = List.range' Allugens.length made.length ∧
        Expansion self args full (Allugens ++ made)

/-- The loop over the places. -/
theorem expands_loop {self : LString} {args : List (Nested A)}
    (hrec : ∀ i, Expands self (newargs i args)) :
    ∀ (is : List ℕ) (results : List (Nested UGenId)) (Allugens : List (Made A)),
      ∃ (fulls : List (Nested UGenId)) (made : List (Made A)),
        is.foldl (fun s i =>
          let (result, Allugens) := MultiNew self (newargs i args) s.2
          (s.1 ++ [result], Allugens)) (results, Allugens) =
            (results ++ fulls.map Nested.collapse, Allugens ++ made) ∧
          Nested.leavesAll fulls = List.range' Allugens.length made.length ∧
            List.Forall₂ (fun i full => Expansion self (newargs i args) full (Allugens ++ made))
              is fulls := by
  intro is
  induction is with
  | nil =>
    intro results Allugens
    exact ⟨[], [], by rw [List.map_nil, List.append_nil, List.append_nil, List.foldl_nil], rfl, .nil⟩
  | cons i is ih =>
    intro results Allugens
    obtain ⟨full, made, hcall, hleaves, hfull⟩ := hrec i Allugens
    obtain ⟨fulls, made', hloop, hleaves', hfulls⟩ :=
      ih (results ++ [full.collapse]) (Allugens ++ made)
    refine ⟨full :: fulls, made ++ made', ?_, ?_, ?_⟩
    · rw [List.foldl_cons, hcall]
      dsimp only
      rw [hloop, List.map_cons, List.append_assoc, List.append_assoc, List.singleton_append]
    · rw [Nested.leavesAll, hleaves, hleaves', List.length_append, List.length_append,
        List.range'_append_1]
    · rw [← List.append_assoc]
      exact .cons (hfull.mono made') hfulls

/-- What the code returns of its results. -/
theorem single_eq {α : Type*} {ts : List (Nested α)} :
    (if ts.length = 1 then ts.headD (.node []) else .node ts) = Nested.single ts := by
  unfold Nested.single
  split
  next h =>
    obtain ⟨t, rfl⟩ := List.length_eq_one_iff.mp h
    rfl
  next h =>
    split
    next t => exact absurd rfl h
    next => rfl

theorem expands (self : LString) {args : List (Nested A)} (h : ∀ v ∈ args, Filled v) :
    Expands self args := by
  -- by the number of arrays in the arguments
  induction hn : Nested.weightAll args using Nat.strong_induction_on generalizing args with
  | _ n ih =>
    intro Allugens
    by_cases hsize : expandSize args = 0
    · obtain ⟨atoms, rfl⟩ := atoms_of_size h hsize
      refine ⟨.leaf Allugens.length, [madeOf self atoms], ?_, rfl, ?_, ?_⟩
      · rw [MultiNew, dif_pos hsize]
        rfl
      · intro path u hu
        cases path with
        | nil =>
          cases hu
          refine ⟨atoms, ?_, ?_⟩
          · rw [List.map_map]
            exact List.map_congr_left fun a _ => by rw [Function.comp_apply, follow]
          · rw [List.getElem?_append_right le_rfl, Nat.sub_self]
            rfl
        | cons k path => cases k <;> cases hu
      · intro path ts hts
        cases path with
        | nil => cases hts
        | cons k path => cases k <;> cases hts
    · have hrec : ∀ i, Expands self (newargs i args) := fun i =>
        ih _ (hn ▸ (weightAll_newargs i args).2 (exists_array hsize)) (newargs_filled h i).1 rfl
      obtain ⟨fulls, made, hloop, hleaves, hfulls⟩ :=
        expands_loop hrec (List.range' 1 (expandSize args)) [] Allugens
      have hlength : fulls.length = expandSize args := by
        rw [← hfulls.length_eq, List.length_range']
      have hplace : ∀ k full, fulls[k]? = some full →
          Expansion self (newargs (k + 1) args) full (Allugens ++ made) := by
        intro k full hfull
        obtain ⟨i, hi, hexp⟩ := forall₂_getElem? hfulls.flip hfull
        obtain ⟨hk, rfl⟩ := List.getElem?_eq_some_iff.mp hi
        rwa [List.getElem_range', Nat.one_mul, Nat.add_comm] at hexp
      refine ⟨.node fulls, made, ?_, hleaves, ?_, ?_⟩
      · rw [MultiNew, dif_neg hsize, hloop, List.nil_append, Nested.collapse, Nested.collapseAll_eq,
          ← single_eq, List.length_map, hlength]
        dsimp only
        split <;> rfl
      · intro path u hu
        cases path with
        | nil => cases hu
        | cons k path =>
          cases k with
          | zero => cases hu
          | succ k =>
            obtain ⟨full, hfull, hu⟩ := Option.bind_eq_some_iff.mp hu
            obtain ⟨atoms, hatoms, hmade⟩ := (hplace k full hfull).atoms path u hu
            rw [(newargs_filled h (k + 1)).2] at hatoms
            exact ⟨atoms, hatoms, hmade⟩
      · intro path ts hts
        cases path with
        | nil =>
          cases hts
          exact hlength
        | cons k path =>
          cases k with
          | zero => cases hts
          | succ k =>
            obtain ⟨full, hfull, hts⟩ := Option.bind_eq_some_iff.mp hts
            exact (hplace k full hfull).places path ts hts

/-- **Multichannel expansion.** Every call of `MultiNew` makes the UGens of one tree, one
for each leaf, and returns the tree without its levels of size 1. At a leaf, the UGen has
for each argument the atom found along the leaf's path, and so no array among its inputs. -/
theorem MultiNew_expands (self : LString) {args : List (Nested A)} (h : ∀ v ∈ args, Filled v)
    (Allugens : List (Made A)) : ∃ (full : Nested UGenId) (made : List (Made A)),
      MultiNew self args Allugens = (full.collapse, Allugens ++ made) ∧ full.collapse.Collapsed ∧
        full.collapse.leaves = List.range' Allugens.length made.length ∧
          Expansion self args full (Allugens ++ made) := by
  obtain ⟨full, made, hcall, hleaves, hfull⟩ := expands self h Allugens
  exact ⟨full, made, hcall, Nested.collapse_collapsed full, (Nested.leaves_collapse full).trans hleaves,
    hfull⟩

/-- `SinOsc.ar({{440,450},660},0)`. -/
def ragged : List (Nested ℕ) := [.leaf 2, .node [.node [.leaf 440, .leaf 450], .leaf 660], .leaf 0]

/-- Three sines are made. -/
theorem ragged_expands : ∃ (full : Nested UGenId) (made : List (Made ℕ)),
    MultiNew (ascii "SinOsc") ragged [] = (full.collapse, [] ++ made) ∧ full.collapse.Collapsed ∧
      full.collapse.leaves = List.range' 0 made.length ∧
        Expansion (ascii "SinOsc") ragged full ([] ++ made) := by
  have hfilled : ∀ ts : List (Nested ℕ), ts ≠ [] → (∀ t ∈ ts, Filled t) → Filled (.node ts) := .node
  refine MultiNew_expands (ascii "SinOsc") ?_ []
  simp only [ragged, List.forall_mem_cons]
  refine ⟨.leaf 2, hfilled _ (List.cons_ne_nil _ _) ?_, .leaf 0, fun v hv => by cases hv⟩
  simp only [List.forall_mem_cons]
  refine ⟨hfilled _ (List.cons_ne_nil _ _) ?_, .leaf 660, fun v hv => by cases hv⟩
  simp only [List.forall_mem_cons]
  exact ⟨.leaf 440, .leaf 450, fun v hv => by cases hv⟩

end Lua2SC.SynthDef

import Lua2SC.Lib.Lua

/-!
# Envelopes

`Env.new` reads the times cyclically, once for each segment, and keeps the curve as it
is; `prAsArray` reads a table of curves cyclically when it lists the segments. So
`Env:delay`, which puts one more segment in front, puts one more time in front of times
that are as many as the segments, but one more curve in front of curves that need not be.
Where there are fewer curves than segments the table then comes round one segment later,
with the added `"lin"` in between: `delay_iff`.

The elements of levels, times and curves are numbers or UGens, `V`. What is not a name
among the curves is a curvature.
-/

namespace Lua2SC.SynthDef

open Lua2SC.Lua

/-- A curve: the name of a shape, or a curvature. -/
inductive Curve (V : Type*) where
  | name (s : LString)
  | value (v : V)

/-- An argument that may be a table or a single value for all places. -/
inductive Wrapped (A : Type*) where
  | one (a : A)
  | table (t : List A)

structure Env (V : Type*) where
  levels : List V
  times : List V
  curve : Wrapped (Curve V)
  releaseNode : Option ℤ
  loopNode : Option ℤ

/-- What stands in the array form. -/
inductive Cell (V : Type*) where
  | value (v : V)
  | int (n : ℤ)

namespace Env

variable {A V : Type*}

/-- `WrapAt(t, i)`; of an empty table it is nil. -/
def WrapAt (t : List A) (i : ℕ) : Option A :=
  let i := i % t.length
  let i := if i ≠ 0 then i else t.length
  t[i - 1]?

/-- `WrapAtUG(v, i)`. -/
def WrapAtUG (v : Wrapped A) (i : ℕ) : Option A :=
  match v with
  | .one a => some a
  | .table t => WrapAt t i

/-- `Env.shapeNames`. -/
def shapeNames : List (LString × ℤ) :=
  [(ascii "step", 0), (ascii "lin", 1), (ascii "linear", 1), (ascii "exp", 2),
    (ascii "exponential", 2), (ascii "sin", 3), (ascii "sine", 3), (ascii "wel", 4),
    (ascii "welch", 4), (ascii "sqr", 6), (ascii "squared", 6), (ascii "cub", 7),
    (ascii "cubed", 7)]

/-- `Env.new`. -/
def new [Zero V] [One V] (levels : Option (List V)) (times : Option (Wrapped V))
    (curve : Option (Wrapped (Curve V))) (releaseNode loopNode : Option ℤ) : Env V :=
  let levels := levels.getD [0, 1, 0]
  let times := times.getD (.table [1, 1])
  let curve := curve.getD (.one (.name (ascii "lin")))
  { levels
    times := (List.range' 1 (levels.length - 1)).filterMap (WrapAtUG times)
    curve, releaseNode, loopNode }

/-- `Env.get_Env_curve_coefs(cur)`, as far as what is then appended: a nil is not. -/
def get_Env_curve_coefs (cur : Option (Curve V)) : LuaM (List (Cell V)) :=
  match cur with
  | some (.name s) =>
    match shapeNames.lookup s with
    | some val => .ok [.int val, .int 0]
    | none => .error "not valid curve name: "
  | some (.value v) => .ok [.int 5, .value v]
  | none => .ok [.int 5]

/-- One turn of the loop of `prAsArray`. -/
def segment (env : Env V) (i : ℕ) : LuaM (List (Cell V)) := do
  let coefs ← get_Env_curve_coefs (WrapAtUG env.curve i)
  return (env.levels[i]?.map Cell.value).toList ++
    ((env.times[i - 1]?.map Cell.value).toList ++ coefs)

/-- `self.releaseNode or -99`. -/
def node (n : Option ℤ) : Cell V := .int (n.getD (-99))

/-- `Env:prAsArray()`. -/
def prAsArray (env : Env V) : LuaM (List (Cell V)) := do
  let segments ← (List.range' 1 env.times.length).mapM (segment env)
  return (env.levels[0]?.map Cell.value).toList ++
    ([.int env.times.length, node env.releaseNode, node env.loopNode] ++ segments.flatten)

/-- `Env:delay(del)`. -/
def delay [Zero V] [One V] (env : Env V) (del : V) : Env V :=
  let curve :=
    match env.curve with
    | .table t => .table (.name (ascii "lin") :: t)
    | .one c => .one c
  new (some (env.levels[0]?.toList ++ env.levels)) (some (.table (del :: env.times))) (some curve)
    (env.releaseNode.map (· + 1)) (env.loopNode.map (· + 1))

/-! ## The law -/

/-- The delayed envelope: the nodes one further, a segment that holds the first level for
the time `d`, and then the segments that there were. -/
def DelayLaw [Zero V] [One V] (env : Env V) (d : V) : Prop :=
  ∃ l shape curvature segments, env.levels.head? = some l ∧
    env.prAsArray = .ok (.value l :: .int env.times.length :: node env.releaseNode ::
      node env.loopNode :: segments) ∧
    (env.delay d).prAsArray = .ok (.value l :: .int (env.times.length + 1) ::
      node (env.releaseNode.map (· + 1)) :: node (env.loopNode.map (· + 1)) ::
      .value l :: .value d :: shape :: curvature :: segments)

/-- The names among the curves are names of shapes. -/
def Named (c : Wrapped (Curve V)) : Prop :=
  ∀ s, (c = .one (.name s) ∨ ∃ t, c = .table t ∧ .name s ∈ t) → (shapeNames.lookup s).isSome

/-- A curve that is written like `"lin"`. -/
def Linear (c : Curve V) : Prop := ∃ s, c = .name s ∧ shapeNames.lookup s = some 1

/-- There is a curve for every segment, or those that are used again are linear. -/
def CurvesReach (curve : Wrapped (Curve V)) (m : ℕ) : Prop :=
  match curve with
  | .one _ => True
  | .table t => m ≤ t.length ∨ (t ≠ [] ∧ ∀ j c, j < m - t.length → t[j]? = some c → Linear c)

section

variable {t : List A} {i m : ℕ}

theorem wrapAt_succ (t : List A) (i : ℕ) : WrapAt t (i + 1) = t[i % t.length]? := by
  rcases Nat.eq_zero_or_pos t.length with h0 | hpos
  · rw [List.length_eq_zero_iff.mp h0]
    rfl
  · have hlt := Nat.mod_lt i hpos
    unfold WrapAt
    dsimp only
    rw [Nat.add_mod_eq_ite]
    have hone : 1 % t.length = if t.length = 1 then 0 else 1 := by
      split
      next h => rw [h]
      next h => exact Nat.mod_eq_of_lt (by omega)
    rw [hone]
    congr 1
    split_ifs <;> omega

theorem wrapAt_of_le (hi : i < t.length) : WrapAt t (i + 1) = t[i]? := by
  rw [wrapAt_succ, Nat.mod_eq_of_lt hi]

theorem wrapAtUG_isSome {v : Wrapped A} (hv : v ≠ .table []) (i : ℕ) :
    ∃ a, WrapAtUG v (i + 1) = some a := by
  cases v with
  | one a => exact ⟨a, rfl⟩
  | table t =>
    have hpos : 0 < t.length := List.length_pos_iff.mpr fun h => hv (by rw [h])
    have hlt := Nat.mod_lt i hpos
    refine ⟨t[i % t.length], ?_⟩
    show WrapAt t (i + 1) = _
    rw [wrapAt_succ, List.getElem?_eq_getElem hlt]

/-- One time for each segment. -/
theorem times_length [Zero V] [One V] (levels : List V) {times : Wrapped V}
    (htimes : times ≠ .table []) (curve : Option (Wrapped (Curve V))) (r l : Option ℤ) :
    (new (some levels) (some times) curve r l).times.length = levels.length - 1 := by
  show ((List.range' 1 (levels.length - 1)).filterMap (WrapAtUG times)).length = _
  generalize levels.length - 1 = m
  rw [List.range'_eq_map_range, List.filterMap_map]
  induction m with
  | zero => rfl
  | succ m ih =>
    obtain ⟨a, ha⟩ := wrapAtUG_isSome htimes m
    rw [List.range_succ, List.filterMap_append, List.length_append, ih]
    have hlast : List.filterMap (WrapAtUG times ∘ fun x => 1 + x) [m] = [a] := by
      simp [Nat.add_comm 1 m, ha]
    rw [hlast]
    rfl

theorem filterMap_getElem? (t : List A) : (List.range t.length).filterMap (t[·]?) = t := by
  induction t with
  | nil => rfl
  | cons a t ih =>
    rw [List.length_cons, List.range_succ_eq_map, List.filterMap_cons, List.filterMap_map]
    show a :: (List.range t.length).filterMap (t[·]?) = a :: t
    rw [ih]

/-- A table as long as what is asked for is read in order. -/
theorem filterMap_wrapAt (t : List A) :
    (List.range' 1 t.length).filterMap (WrapAtUG (.table t)) = t := by
  refine Eq.trans ?_ (filterMap_getElem? t)
  rw [List.range'_eq_map_range, List.filterMap_map]
  refine List.filterMap_congr fun i hi => ?_
  show WrapAt t (1 + i) = t[i]?
  rw [Nat.add_comm, wrapAt_of_le (List.mem_range.mp hi)]

/-! ## Reading a longer table from its second element on -/

/-- The element put in front comes between the first and the second round, and so what
is read stays the same if there is no second round, or it does not matter what is read. -/
theorem wrapAt_cons_iff {B : Type*} (F : Option A → B) (x : A) (ht : t ≠ []) :
    (∀ i < m, F (WrapAt (x :: t) (i + 2)) = F (WrapAt t (i + 1))) ↔
      m ≤ t.length ∨ ∀ j c, j < m - t.length → t[j]? = some c → F (some c) = F (some x) := by
  have hpos := List.length_pos_iff.mpr ht
  have hread : ∀ i, WrapAt (x :: t) (i + 2) = (x :: t)[(i + 1) % (t.length + 1)]? :=
    fun i => wrapAt_succ (x :: t) (i + 1)
  simp only [hread, wrapAt_succ]
  constructor
  · intro h
    rcases Nat.le_total m t.length with hle | hle
    · exact .inl hle
    · refine .inr fun j => ?_
      induction j with
      | zero =>
        intro c hj hc
        have hi := h t.length (by omega)
        rw [Nat.mod_self, Nat.mod_self, hc] at hi
        exact hi.symm
      | succ j ih =>
        intro c hj hc
        have hlt := (List.getElem?_eq_some_iff.mp hc).1
        have hi := h (t.length + (j + 1)) (by omega)
        have hmod : (t.length + (j + 1) + 1) % (t.length + 1) = j + 1 := by
          rw [show t.length + (j + 1) + 1 = t.length + 1 + (j + 1) by omega, Nat.add_mod_left,
            Nat.mod_eq_of_lt (by omega)]
        rw [hmod, Nat.add_mod_left, Nat.mod_eq_of_lt hlt, hc, List.getElem?_cons_succ] at hi
        have hprev := List.getElem?_eq_getElem (l := t) (i := j) (by omega)
        rw [hprev] at hi
        exact hi.symm.trans (ih _ (by omega) hprev)
  · intro h i hi
    rcases Nat.lt_or_ge i t.length with hlt | hge
    · rw [Nat.mod_eq_of_lt (by omega), Nat.mod_eq_of_lt hlt, List.getElem?_cons_succ]
    · rcases h with hle | hsame
      · omega
      · -- both elements read are like `x`
        have hF : ∀ j, j < t.length → j < m - t.length → F t[j]? = F (some x) := by
          intro j hj hjm
          have hget := List.getElem?_eq_getElem hj
          rw [hget]
          exact hsame j _ hjm hget
        have hr : i % t.length < m - t.length := by
          have hdiv := Nat.div_add_mod i t.length
          have hone : 1 ≤ i / t.length := (Nat.one_le_div_iff hpos).mpr hge
          have hmul : t.length * 1 ≤ t.length * (i / t.length) := Nat.mul_le_mul_left _ hone
          omega
        have hr' : (i + 1) % (t.length + 1) ≤ m - t.length := by
          have hdiv := Nat.div_add_mod (i + 1) (t.length + 1)
          have hone : 1 ≤ (i + 1) / (t.length + 1) := (Nat.one_le_div_iff (by omega)).mpr (by omega)
          have hmul : (t.length + 1) * 1 ≤ (t.length + 1) * ((i + 1) / (t.length + 1)) :=
            Nat.mul_le_mul_left _ hone
          omega
        have hltr' := Nat.mod_lt (i + 1) (Nat.succ_pos t.length)
        rw [hF _ (Nat.mod_lt i hpos) hr]
        cases hk : (i + 1) % (t.length + 1) with
        | zero => rfl
        | succ k =>
          rw [hk] at hr' hltr'
          rw [List.getElem?_cons_succ]
          exact hF k (by omega) (by omega)

end

/-! ## Segments -/

section

variable {c : Curve V} {m : ℕ}

theorem coefs_ok (h : ∀ s, c = .name s → (shapeNames.lookup s).isSome) :
    ∃ a b, get_Env_curve_coefs (some c) = .ok [a, b] := by
  cases c with
  | value v => exact ⟨_, _, rfl⟩
  | name s =>
    obtain ⟨val, hval⟩ := Option.isSome_iff_exists.mp (h s rfl)
    refine ⟨.int val, .int 0, ?_⟩
    show (match shapeNames.lookup s with | some val => _ | none => _) = _
    rw [hval]

theorem coefs_lin : get_Env_curve_coefs (some (.name (ascii "lin"))) =
    .ok [(.int 1 : Cell V), .int 0] := rfl

theorem linear_iff : get_Env_curve_coefs (some c) =
    get_Env_curve_coefs (some (.name (ascii "lin"))) ↔ Linear c := by
  rw [coefs_lin]
  cases c with
  | value v =>
    refine iff_of_false (fun h => ?_) fun h => ?_
    · cases h
    · obtain ⟨s, hs, -⟩ := h
      cases hs
  | name s =>
    show (match shapeNames.lookup s with | some val => _ | none => _) = _ ↔ _
    constructor
    · intro h
      refine ⟨s, rfl, ?_⟩
      cases hval : shapeNames.lookup s with
      | none => rw [hval] at h; cases h
      | some val =>
        rw [hval] at h
        cases h
        rfl
    · intro h
      obtain ⟨s', hs, hval⟩ := h
      cases hs
      rw [hval]

/-- Pieces of the same lengths are the same when they are so put together. -/
theorem flatten_map_inj {A B : Type*} {l : List A} {f g : A → List B}
    (hlen : ∀ x ∈ l, (f x).length = (g x).length)
    (h : (l.map f).flatten = (l.map g).flatten) : ∀ x ∈ l, f x = g x := by
  induction l with
  | nil =>
    intro x hx
    cases hx
  | cons y l ih =>
    rw [List.map_cons, List.map_cons, List.flatten_cons, List.flatten_cons] at h
    obtain ⟨hy, hrest⟩ := List.append_inj h (hlen y List.mem_cons_self)
    intro x hx
    rcases List.mem_cons.mp hx with rfl | hx
    · exact hy
    · exact ih (fun z hz => hlen z (List.mem_cons_of_mem y hz)) hrest x hx

end

/-! ## The law and the curves -/

section

variable {curve : Wrapped (Curve V)} {m : ℕ}

/-- The delayed curves. -/
def delayed (curve : Wrapped (Curve V)) : Wrapped (Curve V) :=
  match curve with
  | .table t => .table (.name (ascii "lin") :: t)
  | .one c => .one c

/-- The coefficients of segment `i`, counted from 0. -/
def coefs (curve : Wrapped (Curve V)) (i : ℕ) : LuaM (List (Cell V)) :=
  get_Env_curve_coefs (WrapAtUG curve (i + 1))

/-- **Segment by segment** the curves are as before just when they reach. -/
theorem curvesReach_iff (hcurve : curve ≠ .table []) :
    (∀ i < m, coefs (delayed curve) (i + 1) = coefs curve i) ↔ CurvesReach curve m := by
  cases curve with
  | one c => exact iff_of_true (fun i _ => rfl) trivial
  | table t =>
    have ht : t ≠ [] := fun h => hcurve (by rw [h])
    refine (wrapAt_cons_iff get_Env_curve_coefs (.name (ascii "lin")) ht).trans ?_
    refine or_congr Iff.rfl ?_
    rw [and_iff_right ht]
    simp only [linear_iff]

/-- A curve that is there and whose name is one. -/
theorem coefs_pair {i : ℕ} (hcurve : curve ≠ .table []) (hnamed : Named curve) :
    ∃ a b, coefs curve i = .ok [a, b] := by
  unfold coefs
  cases curve with
  | one c => exact coefs_ok fun s hs => hnamed s (.inl (by rw [hs]))
  | table t =>
    obtain ⟨c, hc⟩ := wrapAtUG_isSome hcurve i
    rw [hc]
    refine coefs_ok fun s hs => hnamed s (.inr ⟨t, rfl, ?_⟩)
    have hget : WrapAt t (i + 1) = some c := hc
    rw [wrapAt_succ] at hget
    rw [← hs]
    exact List.mem_of_getElem? hget

theorem named_delayed (h : Named curve) : Named (delayed curve) := by
  intro s hs
  cases curve with
  | one c =>
    refine h s (hs.imp id fun htable => ?_)
    obtain ⟨t, ht, -⟩ := htable
    cases ht
  | table t =>
    rcases hs with hone | ⟨t', ht', hmem⟩
    · cases hone
    · cases ht'
      rcases List.mem_cons.mp hmem with hlin | hmem
      · cases hlin
        rfl
      · exact h s (.inr ⟨t, rfl, hmem⟩)

/-- The loop of `prAsArray`, counted from 0. -/
theorem prAsArray_eq (env : Env V) : env.prAsArray = (do
    let segments ← (List.range env.times.length).mapM fun i => segment env (i + 1)
    return (env.levels[0]?.map Cell.value).toList ++
      ([.int env.times.length, node env.releaseNode, node env.loopNode] ++ segments.flatten)) := by
  unfold prAsArray
  rw [List.range'_eq_map_range, List.mapM_map]
  simp only [Function.comp_def, Nat.add_comm 1]

/-- Level and time of a segment, counted from 0. -/
def point (env : Env V) (i : ℕ) : List (Cell V) :=
  (env.levels[i + 1]?.map Cell.value).toList ++ (env.times[i]?.map Cell.value).toList

theorem segment_ok {env : Env V} {i : ℕ} {cs : List (Cell V)} (h : coefs env.curve i = .ok cs) :
    segment env (i + 1) = .ok (point env i ++ cs) := by
  unfold segment point
  rw [Nat.add_sub_cancel, List.append_assoc]
  show (do let cs ← coefs env.curve i; return _) = _
  rw [h]
  rfl

theorem prAsArray_ok {env : Env V} {cs : ℕ → List (Cell V)}
    (h : ∀ i, coefs env.curve i = .ok (cs i)) : env.prAsArray =
      .ok ((env.levels[0]?.map Cell.value).toList ++
        ([.int env.times.length, node env.releaseNode, node env.loopNode] ++
          ((List.range env.times.length).map fun i => point env i ++ cs i).flatten)) := by
  rw [prAsArray_eq, mapM_ok fun i _ => segment_ok (h i)]
  rfl

/-- What is written of each curve, if there is one: two numbers. -/
theorem coefs_all (hnamed : Named curve) : ∃ cs : ℕ → List (Cell V),
    (∀ i, coefs curve i = .ok (cs i)) ∧ (curve ≠ .table [] → ∀ i, (cs i).length = 2) ∧
      (curve = .table [] → ∀ i, (cs i).length = 1) := by
  by_cases hempty : curve = .table []
  · subst hempty
    exact ⟨fun _ => [.int 5], fun _ => rfl, fun h => absurd rfl h, fun _ _ => rfl⟩
  · choose a b hab using fun i => coefs_pair (i := i) hempty hnamed
    exact ⟨fun i => [a i, b i], hab, fun _ _ => rfl, fun h => absurd h hempty⟩

variable {env : Env V} [Zero V] [One V] (d : V)

/-- What `delay` makes of an envelope. -/
theorem delay_eq (hlen : env.levels.length = env.times.length + 1) :
    ∃ l, env.levels.head? = some l ∧ (env.delay d).levels = l :: env.levels ∧
      (env.delay d).times = d :: env.times ∧ (env.delay d).curve = delayed env.curve := by
  obtain ⟨l, levels, hlevels⟩ := List.exists_cons_of_length_eq_add_one hlen
  have hhead : env.levels[0]?.toList ++ env.levels = l :: env.levels := by
    rw [hlevels]
    rfl
  refine ⟨l, by rw [hlevels]; rfl, hhead, ?_, rfl⟩
  show (List.range' 1 ((env.levels[0]?.toList ++ env.levels).length - 1)).filterMap
    (WrapAtUG (.table (d :: env.times))) = d :: env.times
  have hcount : (env.levels[0]?.toList ++ env.levels).length - 1 = (d :: env.times).length := by
    rw [hhead, List.length_cons, List.length_cons]
    omega
  rw [hcount, filterMap_wrapAt]

/-- **The law, for an envelope with one level more than times.** -/
theorem delayLaw_iff (hlen : env.levels.length = env.times.length + 1)
    (hnamed : Named env.curve) : DelayLaw env d ↔ CurvesReach env.curve env.times.length := by
  obtain ⟨l, hl, hlevels, htimes, hcurve⟩ := delay_eq d hlen
  obtain ⟨cs, hcs, htwo, hone⟩ := coefs_all hnamed
  have hnonempty : delayed env.curve ≠ .table [] := by
    cases env.curve with
    | one c => exact fun h => by cases h
    | table t => exact fun h => by cases h
  obtain ⟨cs', hcs', htwo', -⟩ := coefs_all (named_delayed hnamed)
  have hl0 : env.levels[0]? = some l := by rw [← List.head?_eq_getElem?, hl]
  have hfirst := prAsArray_ok hcs
  have hsecond := prAsArray_ok (by rw [hcurve]; exact hcs')
  -- behind the new segment stand the points of the old ones
  have hpoint : ∀ i, point (env.delay d) (i + 1) = point env i := by
    intro i
    unfold point
    rw [hlevels, htimes, List.getElem?_cons_succ, List.getElem?_cons_succ]
  have hnew : point (env.delay d) 0 = [.value l, .value d] := by
    unfold point
    rw [hlevels, htimes, List.getElem?_cons_succ, hl0]
    rfl
  rw [hl0] at hfirst
  rw [htimes, hlevels, List.length_cons, List.range_succ_eq_map, List.map_cons, List.map_map,
    List.flatten_cons, hnew] at hsecond
  simp only [Function.comp_def, Nat.succ_eq_add_one, hpoint] at hsecond
  obtain ⟨a, b, hab⟩ := List.length_eq_two.mp (htwo' hnonempty 0)
  rw [hab, Nat.cast_succ] at hsecond
  have hdelayed : (env.delay d).prAsArray = .ok (.value l :: .int (env.times.length + 1) ::
      node (env.releaseNode.map (· + 1)) :: node (env.loopNode.map (· + 1)) :: .value l ::
      .value d :: a :: b ::
      ((List.range env.times.length).map fun i => point env i ++ cs' (i + 1)).flatten) := hsecond
  -- so the law is about what is written of the curves
  have hlaw : DelayLaw env d ↔
      ((List.range env.times.length).map fun i => point env i ++ cs' (i + 1)).flatten =
        ((List.range env.times.length).map fun i => point env i ++ cs i).flatten := by
    constructor
    · intro h
      obtain ⟨l', shape, curvature, segments, -, hA, hB⟩ := h
      rw [hfirst] at hA
      rw [hdelayed] at hB
      simp only [Except.ok.injEq, Option.map_some, Option.toList_some, List.cons_append,
        List.nil_append, List.cons.injEq] at hA hB
      rw [hA.2.2.2.2, hB.2.2.2.2.2.2.2.2]
    · intro h
      rw [h] at hdelayed
      exact ⟨l, a, b, _, hl, hfirst, hdelayed⟩
  rw [hlaw]
  by_cases hempty : env.curve = .table []
  · -- a segment without a curve is one shorter
    have hreach : CurvesReach env.curve env.times.length ↔ env.times.length = 0 := by
      rw [hempty]
      show (env.times.length ≤ 0 ∨ ([] ≠ [] ∧ _)) ↔ _
      rw [Nat.le_zero, ne_eq, eq_self, not_true, false_and, or_false]
    rw [hreach]
    constructor
    · intro h
      have hcount := congrArg List.length h
      simp only [List.length_flatten, List.map_map, Function.comp_def, List.length_append,
        htwo' hnonempty, hone hempty, List.sum_map_add, List.map_const', List.sum_replicate,
        List.length_range, smul_eq_mul] at hcount
      omega
    · intro h
      rw [h]
      rfl
  · rw [← curvesReach_iff hempty]
    have hsame : ∀ i, coefs (delayed env.curve) (i + 1) = coefs env.curve i ↔
        cs' (i + 1) = cs i := by
      intro i
      rw [hcs, hcs', Except.ok.injEq]
    simp only [hsame]
    constructor
    · intro h i hi
      refine List.append_cancel_left (flatten_map_inj (fun i _ => ?_) h i (List.mem_range.mpr hi))
      rw [List.length_append, List.length_append, htwo' hnonempty, htwo hempty]
    · intro h
      refine congrArg List.flatten (List.map_congr_left fun i hi => ?_)
      rw [h i (List.mem_range.mp hi)]

/-- **Delaying an envelope** keeps its segments just when the curves reach. -/
theorem delay_iff {levels : Option (List V)} {times : Option (Wrapped V)}
    {curve : Option (Wrapped (Curve V))} {releaseNode loopNode : Option ℤ}
    (hlevels : levels ≠ some []) (htimes : times ≠ some (.table []))
    (hnamed : Named (new levels times curve releaseNode loopNode).curve) (d : V) :
    DelayLaw (new levels times curve releaseNode loopNode) d ↔
      CurvesReach (new levels times curve releaseNode loopNode).curve
        (new levels times curve releaseNode loopNode).times.length := by
  refine delayLaw_iff d ?_ hnamed
  have htimes' : times.getD (.table [1, 1]) ≠ .table [] := by
    cases times with
    | none => exact fun h => by cases h
    | some t => exact fun h => htimes (by rw [← h]; rfl)
  have hcount := times_length (levels.getD [0, 1, 0]) htimes' curve releaseNode loopNode
  have hpos : 0 < (levels.getD [0, 1, 0]).length := by
    cases levels with
    | none => exact Nat.zero_lt_succ 2
    | some l => exact List.length_pos_iff.mpr fun h => hlevels (by rw [← h]; rfl)
  show (levels.getD [0, 1, 0]).length = _ + 1
  have heq : (new levels times curve releaseNode loopNode).times.length =
      (levels.getD [0, 1, 0]).length - 1 := hcount
  omega

end

/-- One curve for two segments: the second of the delayed segments is linear. -/
theorem delay_one_curve : ¬ DelayLaw (new (some [0, 1, 0]) (some (.one 1))
    (some (.table [.name (ascii "exp")])) none none : Env ℤ) 2 := by
  have hnamed : Named (.table [.name (ascii "exp")] : Wrapped (Curve ℤ)) := by
    intro s hs
    rcases hs with hone | ⟨t, ht, hmem⟩
    · cases hone
    · cases ht
      cases List.mem_singleton.mp hmem
      rfl
  rw [delayLaw_iff 2 rfl hnamed]
  intro h
  rcases h with hle | ⟨-, hlinear⟩
  · exact absurd hle (by decide)
  · obtain ⟨s, hs, hlookup⟩ := hlinear 0 _ (by decide) rfl
    cases hs
    cases hlookup

theorem delay_two_curves : DelayLaw (new (some [0, 1, 0]) (some (.one 1))
    (some (.table [.name (ascii "exp"), .value (-4)])) (some 1) none : Env ℤ) 2 := by
  refine (delay_iff (by decide) (fun h => by cases h) ?_ 2).mpr (.inl le_rfl)
  intro s hs
  rcases hs with hone | ⟨t, ht, hmem⟩
  · cases hone
  · cases ht
    rcases List.mem_cons.mp hmem with hexp | hmem
    · cases hexp
      rfl
    · cases List.mem_singleton.mp hmem

end Env

end Lua2SC.SynthDef

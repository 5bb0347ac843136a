import Lua2SC.SynthDef.Graph
import Lua2SC.Lib.Topological

/-!
# `build` numbers an acyclic graph topologically

The recursion of `doInputs` is proved with one invariant, `Inv`, relative to
the stack of UGens whose walk is open: a UGen is `visited` exactly when it is
numbered or on the stack, no UGen is both, and what is numbered so far is
`Topological`. Every open UGen reads, through others, from the one being
entered; in an acyclic graph it is therefore never the one being entered, so
a `visited` input is already numbered (`doInputs_spec`).

What does not depend on the order of the walk (positions in `ugens`, the
constant pool, the recorded successors) is preserved by each of the four
state updates on its own, and `Preserved` carries it through the recursion
once and for all.
-/

namespace Lua2SC.SynthDef

open Lua2SC.Lua Lua2SC.Topo Relation

variable {g : List UGen}

/-! ## The walk -/

/-- What holds while the UGens of `stack` are open. -/
structure Inv (g : List UGen) (st : BuildState) (stack : List UGenId) : Prop where
  visited : ∀ x, st.visited x = true ↔ x ∈ st.indugens ∨ x ∈ stack
  nodup : (st.indugens ++ stack).Nodup
  bound : ∀ x ∈ st.indugens ++ stack, x < g.length
  topo : Topological (Reads g) st.indugens
  consts : ∀ u ∈ st.indugens, ∀ x, ReadsNumber g u x → x ∈ st.constants

/-- A walk only adds. -/
structure Grows (st st' : BuildState) : Prop where
  indugens : st.indugens <+: st'.indugens
  constants : ∀ x ∈ st.constants, x ∈ st'.constants

theorem Grows.refl (st : BuildState) : Grows st st :=
  ⟨List.prefix_refl _, fun _ hx => hx⟩

theorem Grows.trans {st₁ st₂ st₃ : BuildState} (h₁ : Grows st₁ st₂) (h₂ : Grows st₂ st₃) :
    Grows st₁ st₃ :=
  ⟨h₁.indugens.trans h₂.indugens, fun x hx => h₂.constants x (h₁.constants x hx)⟩

@[simp] theorem addSucesor_visited (st : BuildState) (u : UGenId) (s : Option UGenId) :
    (st.addSucesor u s).visited = st.visited := by cases s <;> rfl

@[simp] theorem addSucesor_indugens (st : BuildState) (u : UGenId) (s : Option UGenId) :
    (st.addSucesor u s).indugens = st.indugens := by cases s <;> rfl

@[simp] theorem addSucesor_constants (st : BuildState) (u : UGenId) (s : Option UGenId) :
    (st.addSucesor u s).constants = st.constants := by cases s <;> rfl

@[simp] theorem addConstant_visited (st : BuildState) (x : LuaNumber) :
    (st.addConstant x).visited = st.visited := by
  unfold BuildState.addConstant; split <;> rfl

@[simp] theorem addConstant_indugens (st : BuildState) (x : LuaNumber) :
    (st.addConstant x).indugens = st.indugens := by
  unfold BuildState.addConstant; split <;> rfl

/-- A constant stays, and the one asked for is there. -/
theorem mem_addConstant {st : BuildState} {x y : LuaNumber} :
    y ∈ (st.addConstant x).constants ↔ y = x ∨ y ∈ st.constants := by
  unfold BuildState.addConstant
  split
  next i hi =>
    have hx : x ∈ st.constants := AList.lookup_isSome.mp (by rw [hi]; rfl)
    constructor
    · exact Or.inr
    · rintro (rfl | hy)
      · exact hx
      · exact hy
  next => exact AList.mem_insert _

/-- Recording a successor touches nothing the invariant speaks of. -/
theorem Inv.addSucesor {st : BuildState} {stack : List UGenId} (h : Inv g st stack)
    (u : UGenId) (s : Option UGenId) : Inv g (st.addSucesor u s) stack where
  visited := by simpa using h.visited
  nodup := by simpa using h.nodup
  bound := by simpa using h.bound
  topo := by simpa using h.topo
  consts := by simpa using h.consts

/-- Opening a fresh UGen pushes it on the stack. -/
theorem Inv.visit {st : BuildState} {stack : List UGenId} (h : Inv g st stack) {u : UGenId}
    (hu : st.visited u = false) (hlt : u < g.length) : Inv g (st.visit u) (u :: stack) where
  visited := by
    intro x
    by_cases hxu : x = u
    · simp [BuildState.visit, hxu]
    · simp [BuildState.visit, h.visited x, hxu]
  nodup := by
    have hnot : u ∉ st.indugens ++ stack := by
      intro hm
      have hv := (h.visited u).mpr (List.mem_append.mp hm)
      rw [hu] at hv
      exact absurd hv (by simp)
    exact List.nodup_middle.mpr (List.nodup_cons.mpr ⟨hnot, h.nodup⟩)
  bound := by
    intro x hx
    rcases List.mem_append.mp hx with hi | hs
    · exact h.bound x (List.mem_append_left _ hi)
    · rcases List.mem_cons.mp hs with rfl | hs'
      · exact hlt
      · exact h.bound x (List.mem_append_right _ hs')
  topo := h.topo
  consts := h.consts

/-- Pooling a constant. -/
theorem Inv.addConstant {st : BuildState} {stack : List UGenId} (h : Inv g st stack)
    (x : LuaNumber) : Inv g (st.addConstant x) stack where
  visited := by simpa using h.visited
  nodup := by simpa using h.nodup
  bound := by simpa using h.bound
  topo := by simpa using h.topo
  consts := by
    intro u hu y hy
    rw [addConstant_indugens] at hu
    exact mem_addConstant.mpr (Or.inr (h.consts u hu y hy))

/-- Closing the top of the stack, with all it reads numbered and pooled. -/
theorem Inv.number {st : BuildState} {stack : List UGenId} {u : UGenId}
    (h : Inv g st (u :: stack)) (hreads : ∀ v, Reads g u v → v ∈ st.indugens)
    (hnums : ∀ x, ReadsNumber g u x → x ∈ st.constants) : Inv g (st.number u) stack where
  visited := by
    intro x
    rw [show (st.number u).visited = st.visited from rfl, h.visited x]
    simp only [BuildState.number, List.mem_append, List.mem_cons]
    tauto
  nodup := by
    show ((st.indugens ++ [u]) ++ stack).Nodup
    rw [List.append_assoc]
    exact h.nodup
  bound := by
    show ∀ x ∈ (st.indugens ++ [u]) ++ stack, x < g.length
    rw [List.append_assoc]
    exact h.bound
  topo := h.topo.snoc hreads
  consts := by
    intro v hv
    rcases List.mem_append.mp hv with hv' | hv'
    · exact h.consts v hv'
    · rw [List.mem_singleton.mp hv']
      exact hnums

/-- Numbered and open UGens are distinct positions of `Allugens`. -/
theorem Inv.length_le {st : BuildState} {stack : List UGenId} (h : Inv g st stack) :
    st.indugens.length + stack.length ≤ g.length := by
  have hsub : (st.indugens ++ stack) ⊆ List.range g.length := fun x hx =>
    List.mem_range.mpr (h.bound x hx)
  have hle := (List.subperm_of_subset h.nodup hsub).length_le
  rwa [List.length_append, List.length_range] at hle

/-- The walk into `r`, given that every open UGen reads through others from it. -/
def WalkSpec (g : List UGen) (fuel : ℕ) : Prop :=
  ∀ (r : Ref) (suc : Option UGenId) (st : BuildState) (stack : List UGenId),
    Inv g st stack → (∀ s ∈ stack, TransGen (Reads g) s r.actualugen) →
    r.actualugen < g.length → g.length < fuel + st.indugens.length + stack.length →
    ∃ st', doInputs g fuel r suc st = .ok st' ∧ Inv g st' stack ∧ Grows st st' ∧
      r.actualugen ∈ st'.indugens

/-- The loop over the inputs of the open UGen `u`. -/
theorem doInput_loop {fuel : ℕ} (hclosed : Closed g) (hwalk : WalkSpec g fuel) {u : UGenId}
    {stack : List UGenId} (hstack : ∀ s ∈ stack, TransGen (Reads g) s u) :
    ∀ (vs : List Input) (st : BuildState), Inv g st (u :: stack) →
      (∀ r, Input.ref r ∈ vs → Reads g u r.actualugen) →
      g.length < fuel + st.indugens.length + (u :: stack).length →
      ∃ st', vs.foldlM (doInput (doInputs g fuel) u) st = .ok st' ∧ Inv g st' (u :: stack) ∧
        Grows st st' ∧ (∀ r, Input.ref r ∈ vs → r.actualugen ∈ st'.indugens) ∧
        (∀ x, Input.number x ∈ vs → x ∈ st'.constants) := by
  intro vs
  induction vs with
  | nil =>
    intro st hinv _ _
    exact ⟨st, rfl, hinv, Grows.refl st, by simp, by simp⟩
  | cons v vs ih =>
    intro st hinv hreads hfuel
    -- one input first: it leaves a state the rest of the loop can go on from
    obtain ⟨st₁, hst₁, hinv₁, hgrow₁, href₁, hnum₁⟩ :
        ∃ st₁, doInput (doInputs g fuel) u st v = .ok st₁ ∧ Inv g st₁ (u :: stack) ∧
          Grows st st₁ ∧ (∀ r, v = .ref r → r.actualugen ∈ st₁.indugens) ∧
          (∀ x, v = .number x → x ∈ st₁.constants) := by
      cases v with
      | number x =>
        refine ⟨st.addConstant x, rfl, hinv.addConstant x, ⟨?_, ?_⟩, ?_, ?_⟩
        · rw [addConstant_indugens]
        · exact fun y hy => mem_addConstant.mpr (Or.inr hy)
        · intro r hr; cases hr
        · intro y hy; cases hy; exact mem_addConstant.mpr (Or.inl rfl)
      | ref r =>
        have hur : Reads g u r.actualugen := hreads r (List.mem_cons_self ..)
        have habove : ∀ s ∈ u :: stack, TransGen (Reads g) s r.actualugen :=
          transGen_push hstack hur
        obtain ⟨st₁, hst₁, hinv₁, hgrow₁, hmem₁⟩ :=
          hwalk r (some u) st (u :: stack) hinv habove (hclosed _ _ hur) hfuel
        refine ⟨st₁, hst₁, hinv₁, hgrow₁, ?_, ?_⟩
        · intro r' hr'; cases hr'; exact hmem₁
        · intro x hx; cases hx
    have hlen := hgrow₁.indugens.length_le
    obtain ⟨st₂, hst₂, hinv₂, hgrow₂, href₂, hnum₂⟩ :=
      ih st₁ hinv₁ (fun r hr => hreads r (List.mem_cons_of_mem _ hr)) (by omega)
    refine ⟨st₂, ?_, hinv₂, hgrow₁.trans hgrow₂, ?_, ?_⟩
    · rw [List.foldlM_cons, hst₁]
      exact hst₂
    · intro r hr
      rcases List.mem_cons.mp hr with hv | hr'
      · exact hgrow₂.indugens.subset (href₁ r hv.symm)
      · exact href₂ r hr'
    · intro x hx
      rcases List.mem_cons.mp hx with hv | hx'
      · exact hgrow₂.constants x (hnum₁ x hv.symm)
      · exact hnum₂ x hx'

/-- **The walk of `doInputs`** in an acyclic graph: it succeeds, keeps the
invariant, only adds, and leaves the UGen it was called on numbered. The
induction is on the fuel, which the open UGens bound. -/
theorem doInputs_spec (hclosed : Closed g) (hac : Acyclic (Reads g)) :
    ∀ fuel : ℕ, WalkSpec g fuel := by
  intro fuel
  induction fuel with
  | zero =>
    intro r suc st stack hinv _ _ hfuel
    have hle := hinv.length_le
    omega
  | succ fuel ih =>
    intro r suc st stack hinv hstack hlt hfuel
    have hinv₀ := hinv.addSucesor r.actualugen suc
    have hgrow₀ : Grows st (st.addSucesor r.actualugen suc) :=
      ⟨by rw [addSucesor_indugens],
        by rw [addSucesor_constants]; exact fun _ hx => hx⟩
    cases hvis : st.visited r.actualugen with
    | true =>
      -- visited and not open (acyclicity), hence numbered
      have hnot : r.actualugen ∉ stack := fun hs => hac _ (hstack _ hs)
      have hmem : r.actualugen ∈ st.indugens :=
        ((hinv.visited _).mp hvis).resolve_right hnot
      refine ⟨st.addSucesor r.actualugen suc, ?_, hinv₀, hgrow₀, ?_⟩
      · simp [doInputs, hvis]
      · rw [addSucesor_indugens]; exact hmem
    | false =>
      obtain ⟨ug, hug⟩ : ∃ ug, g[r.actualugen]? = some ug :=
        ⟨_, List.getElem?_eq_getElem hlt⟩
      have hopen := hinv₀.visit (by simpa using hvis) hlt
      obtain ⟨st₁, hst₁, hinv₁, hgrow₁, href₁, hnum₁⟩ :=
        doInput_loop hclosed ih hstack ug.inputs _ hopen
          (fun r' hr' => ⟨ug, hug, r', hr', rfl⟩)
          (by simp [BuildState.visit]; omega)
      have hgrow₂ : Grows st st₁ := hgrow₀.trans
        ⟨hgrow₁.indugens, hgrow₁.constants⟩
      refine ⟨st₁.number r.actualugen, ?_, hinv₁.number ?_ ?_, ?_, ?_⟩
      · simp [doInputs, hvis, hug, hst₁, bind, Except.bind, pure, Except.pure]
      · rintro v ⟨ug', hug', r', hr', rfl⟩
        rw [hug] at hug'
        cases hug'
        exact href₁ r' hr'
      · rintro x ⟨ug', hug', hx⟩
        rw [hug] at hug'
        cases hug'
        exact hnum₁ x hx
      · exact hgrow₂.trans ⟨List.prefix_append _ _, fun _ hx => hx⟩
      · exact List.mem_append_right _ (List.mem_singleton_self _)

/-! ## What each update preserves on its own -/

/-- A property that the four state updates of `doInputs` preserve. -/
structure Preserved (g : List UGen) (Q : BuildState → Prop) : Prop where
  addSucesor : ∀ st v u, Q st → Reads g u v → Q (st.addSucesor v (some u))
  visit : ∀ st v, Q st → Q (st.visit v)
  addConstant : ∀ st u x, Q st → ReadsNumber g u x → Q (st.addConstant x)
  number : ∀ st u, Q st → Q (st.number u)

/-- The recursion preserves what its updates preserve. -/
theorem doInputs_preserved {Q : BuildState → Prop} (hQ : Preserved g Q) :
    ∀ (fuel : ℕ) (r : Ref) (suc : Option UGenId) (st st' : BuildState),
      Q st → (∀ u, suc = some u → Reads g u r.actualugen) →
      doInputs g fuel r suc st = .ok st' → Q st' := by
  intro fuel
  induction fuel with
  | zero => intro r suc st st' _ _ h; exact absurd h (by simp [doInputs])
  | succ fuel ih =>
    intro r suc st st' hst hsuc h
    have hst₀ : Q (st.addSucesor r.actualugen suc) := by
      cases suc with
      | none => exact hst
      | some u => exact hQ.addSucesor st _ u hst (hsuc u rfl)
    unfold doInputs at h
    dsimp only at h
    split at h
    · exact (Except.ok.inj h) ▸ hst₀
    · split at h
      · exact absurd h (by simp)
      next ug hug =>
        obtain ⟨st₁, hst₁, hret⟩ := bind_ok.mp h
        have hret' : st₁.number r.actualugen = st' := Except.ok.inj hret
        -- the loop over the inputs, from any state that satisfies `Q`
        have hloop : ∀ (vs : List Input) (s s' : BuildState), (∀ v ∈ vs, v ∈ ug.inputs) → Q s →
            vs.foldlM (doInput (doInputs g fuel) r.actualugen) s = .ok s' → Q s' := by
          intro vs
          induction vs with
          | nil => intro s s' _ hs hs'; exact (Except.ok.inj hs') ▸ hs
          | cons v vs ihv =>
            intro s s' hmem hs hs'
            rw [List.foldlM_cons] at hs'
            obtain ⟨s₁, hs₁, hs₂⟩ := bind_ok.mp hs'
            refine ihv s₁ s' (fun w hw => hmem w (List.mem_cons_of_mem _ hw)) ?_ hs₂
            cases v with
            | number x =>
              have hx : ReadsNumber g r.actualugen x := ⟨ug, hug, hmem _ (List.mem_cons_self ..)⟩
              exact (Except.ok.inj hs₁) ▸ hQ.addConstant s _ x hs hx
            | ref r' =>
              refine ih r' (some r.actualugen) s s₁ hs ?_ hs₁
              intro u hu
              cases hu
              exact ⟨ug, hug, r', hmem _ (List.mem_cons_self ..), rfl⟩
        rw [← hret']
        exact hQ.number _ _ (hloop ug.inputs _ st₁ (fun _ hv => hv) (hQ.visit _ _ hst₀) hst₁)

/-- `t` numbers the elements of `l` by their 1-based positions. -/
def Positions (t : LuaTable UGenId ℕ) (l : List UGenId) : Prop :=
  ∀ x pos, t.lookup x = some pos ↔ ∃ i, pos = i + 1 ∧ l[i]? = some x

theorem Positions.empty : Positions ∅ [] := by
  intro x pos
  simp

theorem Positions.snoc {t : LuaTable UGenId ℕ} {l : List UGenId} (h : Positions t l) {u : UGenId}
    (hu : u ∉ l) : Positions (t.insert u (l.length + 1)) (l ++ [u]) := by
  intro x pos
  by_cases hxu : x = u
  · subst hxu
    rw [AList.lookup_insert, Option.some.injEq]
    constructor
    · rintro rfl
      exact ⟨l.length, rfl, by simp⟩
    · rintro ⟨i, rfl, hi⟩
      -- the new element stands at the end only
      rcases Nat.lt_trichotomy i l.length with hlt | rfl | hgt
      · rw [List.getElem?_append_left hlt] at hi
        exact absurd (List.mem_of_getElem? hi) hu
      · rfl
      · rw [List.getElem?_eq_none (by simp; omega)] at hi
        exact absurd hi (by simp)
  · rw [AList.lookup_insert_ne hxu, h x pos]
    constructor
    · rintro ⟨i, rfl, hi⟩
      refine ⟨i, rfl, ?_⟩
      rw [List.getElem?_append_left (List.getElem?_eq_some_iff.mp hi).1]
      exact hi
    · rintro ⟨i, rfl, hi⟩
      refine ⟨i, rfl, ?_⟩
      rcases Nat.lt_trichotomy i l.length with hlt | rfl | hgt
      · rwa [List.getElem?_append_left hlt] at hi
      · rw [List.getElem?_concat_length, Option.some.injEq] at hi
        exact absurd hi.symm hxu
      · rw [List.getElem?_eq_none (by simp; omega)] at hi
        exact absurd hi (by simp)

/-- The constant pool: its values are exactly `1 … count`, each once, and its
keys are numeric inputs of the graph. -/
structure ConstPool (g : List UGen) (t : LuaTable LuaNumber ℕ) : Prop where
  range : ∀ x i, t.lookup x = some i → 1 ≤ i ∧ i ≤ tablelength t
  inj : ∀ x y i, t.lookup x = some i → t.lookup y = some i → x = y
  onto : ∀ i, 1 ≤ i → i ≤ tablelength t → ∃ x, t.lookup x = some i
  keys : ∀ x, x ∈ t → ∃ u, ReadsNumber g u x

theorem ConstPool.empty : ConstPool g ∅ where
  range := by simp
  inj := by simp
  onto := by
    intro i h₁ h₂
    simp [tablelength] at h₂
    omega
  keys := by intro x hx; exact absurd hx (AList.notMem_empty x)

theorem ConstPool.insert {t : LuaTable LuaNumber ℕ} (h : ConstPool g t) {u : UGenId}
    {x : LuaNumber} (hx : x ∉ t) (hux : ReadsNumber g u x) :
    ConstPool g (t.insert x (tablelength t + 1)) where
  range := by
    intro y i hy
    rw [tablelength_insert hx]
    by_cases hyx : y = x
    · subst hyx
      rw [AList.lookup_insert, Option.some.injEq] at hy
      omega
    · rw [AList.lookup_insert_ne hyx] at hy
      have := h.range y i hy
      omega
  inj := by
    intro y z i hy hz
    by_cases hyx : y = x <;> by_cases hzx : z = x
    · rw [hyx, hzx]
    · subst hyx
      rw [AList.lookup_insert, Option.some.injEq] at hy
      rw [AList.lookup_insert_ne hzx] at hz
      have := h.range z i hz
      omega
    · subst hzx
      rw [AList.lookup_insert, Option.some.injEq] at hz
      rw [AList.lookup_insert_ne hyx] at hy
      have := h.range y i hy
      omega
    · rw [AList.lookup_insert_ne hyx] at hy
      rw [AList.lookup_insert_ne hzx] at hz
      exact h.inj y z i hy hz
  onto := by
    intro i h₁ h₂
    rw [tablelength_insert hx] at h₂
    by_cases hi : i = tablelength t + 1
    · exact ⟨x, by rw [AList.lookup_insert, hi]⟩
    · obtain ⟨y, hy⟩ := h.onto i h₁ (by omega)
      have hyx : y ≠ x := by
        rintro rfl
        exact hx (AList.lookup_isSome.mp (by rw [hy]; rfl))
      exact ⟨y, by rw [AList.lookup_insert_ne hyx]; exact hy⟩
  keys := by
    intro y hy
    rcases (AList.mem_insert _).mp hy with rfl | hy'
    · exact ⟨u, hux⟩
    · exact h.keys y hy'

/-- The order-independent part of what a walk leaves behind. -/
structure Books (g : List UGen) (st : BuildState) : Prop where
  ugens : st.indugens.Nodup → Positions st.ugens st.indugens
  constants : ConstPool g st.constants
  sucesors : ∀ v u, u ∈ st.sucesors v → Reads g u v

theorem books_preserved : Preserved g (Books g) where
  addSucesor := by
    intro st v u h huv
    refine ⟨h.ugens, h.constants, ?_⟩
    intro w s hs
    by_cases hwv : w = v
    · subst hwv
      have hs' : s ∈ st.sucesors w ++ [u] := by
        simpa [BuildState.addSucesor] using hs
      rcases List.mem_append.mp hs' with hold | hnew
      · exact h.sucesors w s hold
      · rw [List.mem_singleton.mp hnew]; exact huv
    · have hs' : s ∈ st.sucesors w := by
        simpa [BuildState.addSucesor, Function.update_of_ne hwv] using hs
      exact h.sucesors w s hs'
  visit := fun _ _ h => ⟨h.ugens, h.constants, h.sucesors⟩
  addConstant := by
    intro st u x h hux
    unfold BuildState.addConstant
    split
    · exact h
    next hnone =>
      exact ⟨h.ugens, h.constants.insert (AList.lookup_eq_none.mp hnone) hux, h.sucesors⟩
  number := by
    intro st u h
    refine ⟨?_, h.constants, h.sucesors⟩
    intro hnd
    have hnd' : (st.indugens ++ [u]).Nodup := hnd
    obtain ⟨hnd₁, -, hdis⟩ := List.nodup_append.mp hnd'
    exact (h.ugens hnd₁).snoc fun hu => hdis u hu u (List.mem_singleton_self _) rfl

/-! ## Terminals -/

theorem mem_deleteInputs {ug : UGen} {t : UGenId} {T : Finset UGenId} :
    t ∈ deleteInputs T ug ↔ t ∈ T ∧ ∀ r, Input.ref r ∈ ug.inputs → r.actualugen ≠ t := by
  unfold deleteInputs
  induction ug.inputs generalizing T with
  | nil => simp
  | cons v vs ih =>
    rw [List.foldl_cons, ih]
    cases v with
    | number x => simp
    | ref r =>
      simp only [Finset.mem_erase, List.mem_cons, Input.ref.injEq]
      constructor
      · rintro ⟨⟨hne, ht⟩, hrest⟩
        refine ⟨ht, ?_⟩
        rintro r' (rfl | hr')
        · exact fun e => hne e.symm
        · exact hrest r' hr'
      · rintro ⟨ht, hall⟩
        exact ⟨⟨fun e => hall r (Or.inl rfl) e.symm, ht⟩, fun r' hr' => hall r' (Or.inr hr')⟩

/-- The terminals are the UGens nobody reads from. -/
theorem mem_findTerminals {v : UGenId} :
    v ∈ findTerminals g ↔ v < g.length ∧ ∀ u, ¬ Reads g u v := by
  have hfold : ∀ (l : List UGen) (T : Finset UGenId),
      v ∈ l.foldl deleteInputs T ↔
        v ∈ T ∧ ∀ ug ∈ l, ∀ r, Input.ref r ∈ ug.inputs → r.actualugen ≠ v := by
    intro l
    induction l with
    | nil => intro T; simp
    | cons ug l ih =>
      intro T
      rw [List.foldl_cons, ih, mem_deleteInputs]
      simp only [List.forall_mem_cons, and_assoc]
  unfold findTerminals
  simp only [List.mem_filter, List.mem_range, decide_eq_true_eq, hfold, Finset.mem_range]
  constructor
  · rintro ⟨hlt, -, hall⟩
    refine ⟨hlt, ?_⟩
    rintro u ⟨ug, hug, r, hr, hrv⟩
    exact hall ug (List.mem_of_getElem? hug) r hr hrv
  · rintro ⟨hlt, hno⟩
    refine ⟨hlt, hlt, ?_⟩
    intro ug hug r hr hrv
    obtain ⟨u, hu⟩ := List.mem_iff_getElem?.mp hug
    exact hno u ⟨ug, hu, r, hr, hrv⟩

/-- The walk over a list of UGens numbers all of them. -/
theorem walkTerminals_spec (hclosed : Closed g) (hac : Acyclic (Reads g)) :
    ∀ (ts : List UGenId) (st : BuildState), (∀ t ∈ ts, t < g.length) → Inv g st [] →
      Books g st →
      ∃ st', walkTerminals g ts st = .ok st' ∧ Inv g st' [] ∧ Books g st' ∧ Grows st st' ∧
        ∀ t ∈ ts, t ∈ st'.indugens := by
  intro ts
  induction ts with
  | nil => intro st _ hinv hbooks; exact ⟨st, rfl, hinv, hbooks, Grows.refl st, by simp⟩
  | cons t ts ih =>
    intro st hlt hinv hbooks
    obtain ⟨st₁, hst₁, hinv₁, hgrow₁, hmem₁⟩ :=
      doInputs_spec hclosed hac (g.length + 1) (.ugen t) none st [] hinv (by simp)
        (hlt t (List.mem_cons_self ..)) (by simp; omega)
    have hbooks₁ := doInputs_preserved books_preserved _ _ _ _ _ hbooks (by simp) hst₁
    obtain ⟨st₂, hst₂, hinv₂, hbooks₂, hgrow₂, hmem₂⟩ :=
      ih st₁ (fun t ht => hlt t (List.mem_cons_of_mem _ ht)) hinv₁ hbooks₁
    refine ⟨st₂, ?_, hinv₂, hbooks₂, hgrow₁.trans hgrow₂, ?_⟩
    · unfold walkTerminals at hst₂ ⊢
      rw [List.foldlM_cons, hst₁]
      exact hst₂
    · intro s hs
      rcases List.mem_cons.mp hs with rfl | hs'
      · exact hgrow₂.indugens.subset hmem₁
      · exact hmem₂ s hs'

/-! ## The finished build -/

theorem orderOf_positions {l : List UGenId} (hnd : l.Nodup) : Positions (orderOf l) l := by
  have hkeys : ((l.zipIdx.map fun vi => (vi.1, vi.2 + 1)).map Prod.fst).Nodup := by
    rw [List.map_map]
    simpa [Function.comp_def] using hnd
  intro x pos
  unfold orderOf
  rw [lookup_ofPairs hkeys, List.mem_map]
  constructor
  · rintro ⟨⟨v, i⟩, hvi, heq⟩
    obtain ⟨rfl, rfl⟩ := Prod.mk.injEq .. ▸ heq
    exact ⟨i, rfl, List.mem_zipIdx_iff_getElem?.mp hvi⟩
  · rintro ⟨i, rfl, hi⟩
    exact ⟨(x, i), List.mem_zipIdx_iff_getElem?.mpr hi, rfl⟩

/-- With every reader listed, the check passes. -/
theorem toposortcheck_ok {st : BuildState} (hinv : Inv g st []) (hbooks : Books g st)
    (hall : ∀ v, v < g.length → v ∈ st.indugens) : toposortcheck st = .ok () := by
  have hnd : st.indugens.Nodup := by simpa using hinv.nodup
  have hpos := orderOf_positions hnd
  unfold toposortcheck
  rw [if_pos]
  simp only [List.all_eq_true]
  rintro ⟨v, i⟩ hvi su hsu
  have hi : st.indugens[i]? = some v := by simpa using (List.mem_zipIdx_iff_getElem?.mp hvi)
  -- `su` reads from `v`, so it stands after it
  have hread : Reads g su v := hbooks.sucesors v su hsu
  obtain ⟨ug, hug, -⟩ := id hread
  have hmem : su ∈ st.indugens := hall su (List.getElem?_eq_some_iff.mp hug).1
  have hlt := hinv.topo.idxOf_lt hnd hmem hread
  have hj : (orderOf st.indugens).lookup su = some (st.indugens.idxOf su + 1) :=
    (hpos su _).mpr ⟨_, rfl, by simp [hmem]⟩
  have hidx : st.indugens.idxOf v = i := by
    obtain ⟨hlt', hget⟩ := List.getElem?_eq_some_iff.mp hi
    rw [← hget]
    exact hnd.idxOf_getElem i hlt'
  simp only [isAfter, hj, decide_eq_true_eq]
  omega

/-- The numeric inputs of all UGens. -/
def numericInputs (g : List UGen) : List LuaNumber :=
  g.flatMap fun ug => ug.inputs.filterMap fun v =>
    match v with
    | .number x => some x
    | .ref _ => none

theorem mem_numericInputs {x : LuaNumber} :
    x ∈ numericInputs g ↔ ∃ u, ReadsNumber g u x := by
  unfold numericInputs ReadsNumber
  simp only [List.mem_flatMap, List.mem_filterMap]
  constructor
  · rintro ⟨ug, hug, v, hv, hvx⟩
    obtain ⟨u, hu⟩ := List.mem_iff_getElem?.mp hug
    cases v with
    | number y => cases hvx; exact ⟨u, ug, hu, hv⟩
    | ref r => cases hvx
  · rintro ⟨u, ug, hug, hx⟩
    exact ⟨ug, List.mem_of_getElem? hug, _, hx, rfl⟩

/-- A table with exactly the numeric inputs as keys has as many pairs as there
are distinct ones. -/
theorem card_numericInputs {t : LuaTable LuaNumber ℕ}
    (hmem : ∀ x, x ∈ t ↔ ∃ u, ReadsNumber g u x) :
    (numericInputs g).toFinset.card = tablelength t := by
  have hkeys : (numericInputs g).toFinset = t.keys.toFinset := by
    ext x
    rw [List.mem_toFinset, List.mem_toFinset, mem_numericInputs, ← hmem x, AList.mem_keys]
  rw [hkeys, List.toFinset_card_of_nodup t.keys_nodup]
  simp [AList.keys, tablelength, List.keys]

/-- What a build is for: every UGen once, each after all it reads from, its
position on record, and the distinct numeric inputs numbered from 1. -/
structure TopologicalBuild (g : List UGen) (st : BuildState) : Prop where
  perm : st.indugens.Perm (List.range g.length)
  topo : Topological (Reads g) st.indugens
  ugens : Positions st.ugens st.indugens
  constants_mem : ∀ x, x ∈ st.constants ↔ ∃ u, ReadsNumber g u x
  constants_bij : Set.BijOn (fun x => (st.constants.lookup x).getD 0)
    {x | ∃ u, ReadsNumber g u x} (Set.Icc 1 (numericInputs g).toFinset.card)

theorem topologicalBuild_of {st : BuildState} (hinv : Inv g st []) (hbooks : Books g st)
    (hall : ∀ v, v < g.length → v ∈ st.indugens) : TopologicalBuild g st := by
  have hnd : st.indugens.Nodup := by simpa using hinv.nodup
  have hbound : ∀ x ∈ st.indugens, x < g.length := by simpa using hinv.bound
  have hmem : ∀ x, x ∈ st.constants ↔ ∃ u, ReadsNumber g u x := by
    intro x
    constructor
    · exact hbooks.constants.keys x
    · rintro ⟨u, hux⟩
      obtain ⟨ug, hug, -⟩ := id hux
      exact hinv.consts u (hall u (List.getElem?_eq_some_iff.mp hug).1) x hux
  have hcard := card_numericInputs hmem
  refine ⟨?_, hinv.topo, hbooks.ugens hnd, hmem, ?_, ?_, ?_⟩
  · rw [List.perm_ext_iff_of_nodup hnd List.nodup_range]
    intro x
    rw [List.mem_range]
    exact ⟨hbound x, hall x⟩
  · intro x hx
    obtain ⟨i, hi⟩ := Option.isSome_iff_exists.mp (AList.lookup_isSome.mpr ((hmem x).mpr hx))
    simp only [hi, Option.getD_some, hcard]
    exact hbooks.constants.range x i hi
  · intro x hx y hy hxy
    obtain ⟨i, hi⟩ := Option.isSome_iff_exists.mp (AList.lookup_isSome.mpr ((hmem x).mpr hx))
    obtain ⟨j, hj⟩ := Option.isSome_iff_exists.mp (AList.lookup_isSome.mpr ((hmem y).mpr hy))
    simp only [hi, hj, Option.getD_some] at hxy
    subst hxy
    exact hbooks.constants.inj x y i hi hj
  · rintro i ⟨h₁, h₂⟩
    rw [hcard] at h₂
    obtain ⟨x, hx⟩ := hbooks.constants.onto i h₁ h₂
    refine ⟨x, hbooks.constants.keys x (AList.lookup_isSome.mp (by rw [hx]; rfl)), ?_⟩
    simp [hx]

/-- The UGens of the SynthDef, if it has any, form an acyclic graph. -/
def SYNTHDef.AcyclicGraph (d : SYNTHDef) : Prop :=
  ∀ g, d.Allugens = some g → Closed g ∧ Acyclic (Reads g)

/-- A build over an acyclic graph succeeds and leaves no walk open. -/
theorem build_inv {d : SYNTHDef} (hfresh : d.Fresh) (hg : d.AcyclicGraph)
    (hsome : d.Allugens = some g) :
    ∃ st, d.build = .ok
        { d with outputugens := findTerminals g, st := st, isBuild := true } ∧
      Inv g st [] ∧ TopologicalBuild g st ∧ ConstPool g st.constants := by
  obtain ⟨hclosed, hac⟩ := hg g hsome
  have hinv₀ : Inv g { d.st with ugens := ∅, indugens := [], constants := ∅ } [] :=
    ⟨by simp [hfresh.visited], by simp, by simp, Topological.nil, by simp⟩
  have hbooks₀ : Books g { d.st with ugens := ∅, indugens := [], constants := ∅ } :=
    ⟨fun _ => Positions.empty, ConstPool.empty, by simp [hfresh.sucesors]⟩
  obtain ⟨st, hst, hinv, hbooks, -, hterm⟩ :=
    walkTerminals_spec hclosed hac (findTerminals g) _
      (fun t ht => (mem_findTerminals.mp ht).1) hinv₀ hbooks₀
  -- every UGen is read, through others, by a terminal one
  have hall : ∀ v, v < g.length → v ∈ st.indugens := by
    intro v hv
    obtain ⟨t, ht, htt, htv⟩ := exists_terminal hac (Finset.range g.length) v
      (Finset.mem_range.mpr hv)
    have hterminal : t ∈ findTerminals g := by
      refine mem_findTerminals.mpr ⟨Finset.mem_range.mp ht, ?_⟩
      intro u hut
      obtain ⟨ug, hug, -⟩ := id hut
      exact htt u (Finset.mem_range.mpr (List.getElem?_eq_some_iff.mp hug).1) hut
    exact hinv.topo.closed_reflTransGen (hterm t hterminal) htv
  refine ⟨st, ?_, hinv, topologicalBuild_of hinv hbooks hall, hbooks.constants⟩
  simp [SYNTHDef.build, hsome, hst, toposortcheck_ok hinv hbooks hall, bind, Except.bind, pure,
    Except.pure]

/-- It changes only what it is for. -/
theorem build_spec {d : SYNTHDef} (hfresh : d.Fresh) (hg : d.AcyclicGraph)
    (hsome : d.Allugens = some g) :
    ∃ st, d.build = .ok
        { d with outputugens := findTerminals g, st := st, isBuild := true } ∧
      TopologicalBuild g st ∧ ConstPool g st.constants := by
  obtain ⟨st, hst, -, htopo, hpool⟩ := build_inv hfresh hg hsome
  exact ⟨st, hst, htopo, hpool⟩

/-- A build that succeeds keeps the UGens and leaves the mark. -/
theorem build_keeps {d d' : SYNTHDef} (h : d.build = .ok d') :
    d'.Allugens = d.Allugens ∧ d'.isBuild = true := by
  unfold SYNTHDef.build at h
  split at h
  · exact absurd h (by simp)
  · obtain ⟨st, -, hrest⟩ := bind_ok.mp h
    obtain ⟨_, -, hret⟩ := bind_ok.mp hrest
    cases hret
    exact ⟨rfl, rfl⟩

/-- **`build` sorts every acyclic SynthDef topologically.** The assertion of
`toposortcheck` never fires (a SynthDef without any UGen raises earlier, at
`ipairs(nil)`), and with UGens the build succeeds. -/
theorem build_topological {d : SYNTHDef} (hfresh : d.Fresh) (hg : d.AcyclicGraph) :
    d.build ≠ .error .badToposort ∧
      ∀ g, d.Allugens = some g → ∃ d', d.build = .ok d' ∧ d'.Allugens = some g ∧
        TopologicalBuild g d'.st := by
  constructor
  · cases hsome : d.Allugens with
    | none => simp [SYNTHDef.build, hsome]
    | some g =>
      obtain ⟨st, hst, -⟩ := build_spec hfresh hg hsome
      rw [hst]
      simp
  · intro g hsome
    obtain ⟨st, hst, htopo, -⟩ := build_spec hfresh hg hsome
    exact ⟨_, hst, hsome, htopo⟩

/-! ## Graphs made in order -/

/-- Every UGen reads only from UGens made before it: so it is with UGens that
get their inputs in the constructor. -/
def readsBefore (g : List UGen) : Bool :=
  g.zipIdx.all fun ui => ui.1.inputs.all fun v =>
    match v with
    | .number _ => true
    | .ref r => decide (r.actualugen < ui.2)

theorem reads_lt_of_readsBefore (h : readsBefore g = true) {u v : UGenId}
    (huv : Reads g u v) : v < u := by
  obtain ⟨ug, hug, r, hr, rfl⟩ := huv
  unfold readsBefore at h
  have hall := List.all_eq_true.mp h (ug, u) (List.mem_zipIdx_iff_getElem?.mpr hug)
  exact of_decide_eq_true (List.all_eq_true.mp hall (.ref r) hr)

/-- Such a graph is acyclic; the order it was made in is the rank. -/
theorem acyclicGraph_of_readsBefore {d : SYNTHDef}
    (h : ∀ g, d.Allugens = some g → readsBefore g = true) : d.AcyclicGraph := by
  intro g hg
  refine ⟨?_, acyclic_of_rank id fun u v huv => reads_lt_of_readsBefore (h g hg) huv⟩
  intro u v huv
  obtain ⟨ug, hug, -⟩ := id huv
  exact (reads_lt_of_readsBefore (h g hg) huv).trans (List.getElem?_eq_some_iff.mp hug).1

/-- `Out.ar(out, Pan2.ar(SinOsc.ar(freq, 0), 0, 1))`: a control and a panner
used through their output proxies, an oscillator used directly. -/
def sineUGens : List UGen := [
  ⟨ascii "Control", 1, 0, false, [], [⟨0, 1⟩, ⟨0, 2⟩]⟩,
  ⟨ascii "SinOsc", 2, 0, false, [.ref (.proxy ⟨0, 1⟩), .number (.finite 0)], []⟩,
  ⟨ascii "Pan2", 2, 0, false,
    [.ref (.ugen 1), .number (.finite 0), .number (.finite 1)], [⟨2, 1⟩, ⟨2, 2⟩]⟩,
  ⟨ascii "Out", 2, 0, true,
    [.ref (.proxy ⟨0, 2⟩), .ref (.proxy ⟨2, 1⟩), .ref (.proxy ⟨2, 2⟩)], []⟩]

/-- The SynthDef around it, not built yet. -/
def sineDef : SYNTHDef where
  name := ascii "sine"
  Allugens := some sineUGens
  parameters := [.finite 440, .finite 0]
  paramnames := [⟨ascii "freq", some 1⟩, ⟨ascii "out", some 2⟩]
  reblock := none
  resample := none
  isBuild := false
  outputugens := []
  st := ⟨fun _ => false, fun _ => [], [], ∅, ∅⟩
  compiledStr := none

theorem sineDef_fresh : sineDef.Fresh := ⟨rfl, fun _ => rfl, fun _ => rfl⟩

theorem sineDef_acyclic : sineDef.AcyclicGraph := by
  refine acyclicGraph_of_readsBefore fun g hg => ?_
  cases hg
  decide

/-- The sine SynthDef is built in topological order. -/
theorem sineDef_built :
    sineDef.build ≠ .error .badToposort ∧
      ∃ d', sineDef.build = .ok d' ∧ TopologicalBuild sineUGens d'.st := by
  obtain ⟨hno, hbuild⟩ := build_topological sineDef_fresh sineDef_acyclic
  obtain ⟨d', hd', -, htopo⟩ := hbuild sineUGens rfl
  exact ⟨hno, d', hd', htopo⟩

/-! ## A second build

`build` clears what it has numbered, but the marks stay on the UGens, so the second walk
stops at every terminal. -/

/-- Over marked terminals the walk does nothing. -/
theorem walkTerminals_visited : ∀ (ts : List UGenId) (st : BuildState),
    (∀ t ∈ ts, st.visited t = true) → walkTerminals g ts st = .ok st := by
  intro ts
  induction ts with
  | nil => intro st _; rfl
  | cons t ts ih =>
    intro st hvisited
    have hstop : doInputs g (g.length + 1) (.ugen t) none st = .ok st := by
      rw [doInputs]
      exact if_pos (hvisited t List.mem_cons_self)
    have hrest := ih st fun t' ht' => hvisited t' (List.mem_cons_of_mem t ht')
    unfold walkTerminals at hrest ⊢
    rw [List.foldlM_cons, hstop]
    exact hrest

/-- **The second build finds nothing to number.** -/
theorem build_again {d d' : SYNTHDef} (hfresh : d.Fresh) (hg : d.AcyclicGraph)
    (hbuild : d.build = .ok d') :
    d'.build = .ok { d' with st := { d'.st with ugens := ∅, indugens := [], constants := ∅ } } := by
  cases hsome : d.Allugens with
  | none =>
    unfold SYNTHDef.build at hbuild
    rw [hsome] at hbuild
    cases hbuild
  | some g =>
    obtain ⟨st, hst, hinv, htopo, -⟩ := build_inv hfresh hg hsome
    obtain rfl := Except.ok.inj (hst.symm.trans hbuild)
    have hvisited : ∀ t ∈ findTerminals g, st.visited t = true := by
      intro t ht
      refine (hinv.visited t).mpr (Or.inl (htopo.perm.symm.subset ?_))
      exact List.mem_range.mpr (mem_findTerminals.mp ht).1
    have hwalk := @walkTerminals_visited g (findTerminals g)
      { st with ugens := ∅, indugens := [], constants := ∅ } hvisited
    unfold SYNTHDef.build
    simp only [hsome]
    rw [hwalk]
    rfl

/-- **`build` is idempotent** on a SynthDef without UGens, and on no other. -/
theorem build_idempotent_iff {d d' : SYNTHDef} (hfresh : d.Fresh) (hg : d.AcyclicGraph)
    (hbuild : d.build = .ok d') :
    (∃ d'', d'.build = .ok d'' ∧ d''.st.indugens = d'.st.indugens ∧
      d''.st.ugens = d'.st.ugens ∧ d''.st.constants = d'.st.constants) ↔ d.Allugens = some [] := by
  have hagain := build_again hfresh hg hbuild
  cases hsome : d.Allugens with
  | none =>
    unfold SYNTHDef.build at hbuild
    rw [hsome] at hbuild
    cases hbuild
  | some g =>
    obtain ⟨st, hst, -, htopo, hpool⟩ := build_inv hfresh hg hsome
    obtain rfl := Except.ok.inj (hst.symm.trans hbuild)
    constructor
    · rintro ⟨d'', hd'', hindugens, -⟩
      obtain rfl := Except.ok.inj (hagain.symm.trans hd'')
      have hlength := htopo.perm.length_eq
      rw [← show ([] : List UGenId) = st.indugens from hindugens, List.length_range] at hlength
      rw [List.length_eq_zero_iff.mp hlength.symm]
    · intro hempty
      obtain rfl : g = [] := Option.some.inj hempty
      have hindugens : st.indugens = [] := htopo.perm.eq_nil
      refine ⟨_, hagain, hindugens.symm, ?_, ?_⟩
      · show ∅ = st.ugens
        refine (AList.ext ?_).symm
        refine List.eq_nil_iff_forall_not_mem.mpr fun e he => ?_
        obtain ⟨i, -, hi⟩ := (htopo.ugens e.1 e.2).mp (AList.mem_lookup_iff.mpr he)
        rw [hindugens] at hi
        cases hi
      · show ∅ = st.constants
        refine (AList.ext ?_).symm
        refine List.eq_nil_iff_forall_not_mem.mpr fun e he => ?_
        obtain ⟨u, ug, hug, -⟩ := hpool.keys e.1 (AList.lookup_isSome.mp
          (Option.isSome_iff_exists.mpr ⟨e.2, AList.mem_lookup_iff.mpr he⟩))
        cases hug

/-- After the second build of the sine SynthDef nothing is left of it. -/
theorem sineDef_rebuilt : ∃ d' d'', sineDef.build = .ok d' ∧ d'.build = .ok d'' ∧
    d'.st.indugens = [0, 1, 2, 3] ∧ d''.st.indugens = [] ∧ d''.st.constants = ∅ := by
  obtain ⟨d', hd', hindugens⟩ : ∃ d', sineDef.build = .ok d' ∧ d'.st.indugens = [0, 1, 2, 3] :=
    ⟨_, rfl, rfl⟩
  exact ⟨d', _, hd', build_again sineDef_fresh sineDef_acyclic hd', hindugens, rfl, rfl⟩

/-- So it is with the sine SynthDef. -/
theorem sineDef_not_idempotent : ∃ d', sineDef.build = .ok d' ∧
    ((∃ d'', d'.build = .ok d'' ∧ d''.st.indugens = d'.st.indugens ∧
      d''.st.ugens = d'.st.ugens ∧ d''.st.constants = d'.st.constants) ↔
        sineDef.Allugens = some []) := by
  obtain ⟨d', hd'⟩ : ∃ d', sineDef.build = .ok d' := ⟨_, rfl⟩
  exact ⟨d', hd', build_idempotent_iff sineDef_fresh sineDef_acyclic hd'⟩

end Lua2SC.SynthDef
